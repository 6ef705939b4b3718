import WitBindgen.Canon.Stored
import WitBindgen.Library.ReadOnly

/-!
# Loading changes nothing

`load` only reads, so all the parts of a value are loaded from the same memory. A
variant is its discriminant and the payload of the case that has it.
-/

namespace WitBindgen

open Heap

/-- What an arm is read from: memory at `a`. -/
def loadPayload (T : Target) (a : Nat) : Option Ty → Exec Event (Option Val)
  | none => pure none
  | some t => some <$> load T t a

theorem load_payload {T : Target} {ty : Ty} {arms : List (Option Ty)} (ha : ty.arms = some arms)
    (a : Nat) : load T ty a =
      (loadNat a (T.tagBytes ty) >>= fun d => require arms[d]? >>= fun arm =>
        loadPayload T (a + T.payloadOffset ty arms) arm >>= fun o => pure (.variant d o)) := by
  rw [load_arms ha, loadArm]
  congr 1
  funext d
  rw [List.getElem?_map]
  cases arms[d]? with
  | none => rfl
  | some arm =>
    rw [Option.map_some, require_some, require_some, pure_bind, pure_bind]
    cases arm with
    | none => rfl
    | some t => simp [loadPayload]

section
variable (T : Target)

theorem loadPair_readOnly (a : Nat) : ReadOnly (loadPair T a) :=
  (ReadOnly.loadNat _ _).bind fun _ => (ReadOnly.loadNat _ _).bind fun _ => .pure _

theorem liftString_readOnly (x : Nat × Nat) : ReadOnly (liftString x) :=
  (ReadOnly.loadBytes _ _).bind fun _ => (ReadOnly.require _).bind fun _ => .pure _

theorem loadHandle_readOnly (a : Nat) : ReadOnly (loadHandle a) :=
  (ReadOnly.loadNat _ _).bind fun _ => .pure _

theorem loadWords_readOnly (k n a : Nat) : ReadOnly (loadWords k n a) := by
  induction n generalizing a with
  | zero => exact .pure _
  | succ n ih => exact (ReadOnly.loadNat _ _).bind fun _ => (ih _).bind fun _ => .pure _

theorem load_readOnly (ty : Ty) : ∀ a, ReadOnly (load T ty a) := by
  induction ty using Ty.ind with
  | prim q =>
    intro a
    rw [load]
    exact (ReadOnly.loadNat _ _).bind fun _ => .require _
  | string =>
    intro a
    rw [load]
    exact (loadPair_readOnly T a).bind fun _ => liftString_readOnly _
  | errorContext => intro a; rw [load]; exact loadHandle_readOnly a
  | type id t ih => intro a; rw [load]; exact ih a
  | list id t ih =>
    intro a
    rw [load]
    exact (loadPair_readOnly T a).bind fun _ => (ReadOnly.mapM fun a _ => ih a).bind fun _ => .pure _
  | map id k v ihk ihv =>
    intro a
    rw [load]
    exact (loadPair_readOnly T a).bind fun _ => (ReadOnly.mapM fun a _ =>
      (ihk a).bind fun _ => (ihv _).bind fun _ => .pure _).bind fun _ => .pure _
  | fixedLengthList id t n ih =>
    intro a
    rw [load]
    exact (ReadOnly.mapM fun a _ => ih a).bind fun _ => .pure _
  | fields ty types hf ih =>
    intro a
    rw [load_fields hf, loadFields]
    refine (ReadOnly.mapM fun x hx => ?_).bind fun _ => .pure _
    obtain ⟨t, ht, heq⟩ := List.mem_map.mp (List.of_mem_zip hx).2
    rw [← heq]
    exact ih t ht _
  | flags id name names =>
    intro a
    rw [load]
    exact (loadWords_readOnly _ _ a).bind fun _ => .pure _
  | arms ty arms ha ih =>
    intro a
    rw [load_payload ha]
    refine (ReadOnly.loadNat _ _).bind fun d => ?_
    cases harm : arms[d]? with
    | none => exact ReadOnly.stuck
    | some arm =>
      rw [require_some, pure_bind]
      refine ReadOnly.bind ?_ fun _ => .pure _
      cases arm with
      | none => exact .pure _
      | some t =>
        rw [loadPayload, map_eq_pure_bind]
        exact (ih t (List.mem_of_getElem? harm) _).bind fun _ => .pure _
  | enum id name cases =>
    intro a
    rw [load]
    exact (ReadOnly.loadNat _ _).bind fun _ => .require _
  | handle id h name => intro a; rw [load]; exact loadHandle_readOnly a
  | future id t => intro a; rw [load]; exact loadHandle_readOnly a
  | stream id t => intro a; rw [load]; exact loadHandle_readOnly a
  | resource id => intro a; rw [load]; exact .stuck
  | unknown id => intro a; rw [load]; exact .stuck

end

end WitBindgen
