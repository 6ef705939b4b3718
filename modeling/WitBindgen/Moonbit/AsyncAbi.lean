import WitBindgen.Rt.Stream
import Mathlib.Tactic.Common

/-!
# The status of a copy in MoonBit

`async_abi.mbt` takes the status of a stream operation as an `Int`, which is signed, while
the host packs it into an unsigned number: the count above four bits for the result. What
`Rt.ReturnCode.decode` makes of the same word is the reference.
-/

namespace WitBindgen.Moonbit.AsyncAbi

/-! ## The code -/

inductive CopyResult where
  | completed | dropped | cancelled
  deriving DecidableEq

def CopyResult.code : CopyResult → Nat
  | completed => 0
  | dropped => 1
  | cancelled => 2

structure StreamResult where
  progress : Int
  copyResult : CopyResult
  deriving DecidableEq

/-- `none` is the panic. -/
def CopyResult.from (int : BitVec 32) : Option CopyResult :=
  if int = 0 then some completed
  else if int = 1 then some dropped
  else if int = 2 then some cancelled
  else none

/-- `int >> 4` keeps the sign of an `Int`. -/
def StreamResult.from (int : BitVec 32) : Option StreamResult :=
  (CopyResult.from (int &&& 0xf)).map fun copyResult => ⟨(int.sshiftRight 4).toInt, copyResult⟩

/-- What an operation makes of the value: `-1` is not looked at further, the operation is
blocked. -/
def decode (val : BitVec 32) : Option (Option StreamResult) :=
  if val.toInt = -1 then some none else (StreamResult.from val).map some

/-! ## The meaning -/

/-- The same status in the other runtime's words, `none` for a blocked operation. -/
def ofReturnCode : Rt.ReturnCode → Option StreamResult
  | .blocked => none
  | .completed amt => some ⟨amt, .completed⟩
  | .dropped amt => some ⟨amt, .dropped⟩
  | .cancelled amt => some ⟨amt, .cancelled⟩

/-- The value is decoded as what the host packed into it, and as in the Rust runtime. -/
structure Decoded (val : BitVec 32) : Prop where
  result : ∀ n c, val.toNat = n * 16 + CopyResult.code c →
    StreamResult.from val = some ⟨n, c⟩ ∧ decode val ≠ some none
  agrees : decode val = (Rt.ReturnCode.decode val.toNat).map ofReturnCode

/-! ## Words -/

theorem copyResult_from (val : BitVec 32) : CopyResult.from (val &&& 0xf) =
    if val.toNat % 16 = 0 then some .completed
    else if val.toNat % 16 = 1 then some .dropped
    else if val.toNat % 16 = 2 then some .cancelled
    else none := by
  have hnibble : (val &&& 0xf).toNat = val.toNat % 16 := by
    rw [BitVec.toNat_and]
    exact Nat.and_two_pow_sub_one_eq_mod val.toNat 4
  unfold CopyResult.from
  simp only [← BitVec.toNat_inj, hnibble]
  rfl

theorem copyResult_from_of_code {val : BitVec 32} {c : CopyResult} (h : val.toNat % 16 = c.code) :
    CopyResult.from (val &&& 0xf) = some c := by
  rw [copyResult_from, h]
  cases c <;> rfl

/-- The sign comes back from the shift, so a count is right as long as the word has none. -/
theorem toInt_sshiftRight (val : BitVec 32) :
    (val.sshiftRight 4).toInt = ↑(val.toNat / 16) ↔ val.toNat < 2 ^ 31 := by
  have hval := val.isLt
  rw [BitVec.toInt_sshiftRight, Int.shiftRight_eq_div_pow, BitVec.toInt_eq_toNat_cond]
  split <;> omega

theorem toInt_eq_neg_one (val : BitVec 32) : val.toInt = -1 ↔ val.toNat = Rt.blocked := by
  have hval := val.isLt
  rw [BitVec.toInt_eq_toNat_cond, Rt.blocked]
  split <;> omega

theorem returnCode_decode (val : BitVec 32) (h : val.toNat ≠ Rt.blocked) :
    (Rt.ReturnCode.decode val.toNat).map ofReturnCode =
      (CopyResult.from (val &&& 0xf)).map fun c => some ⟨↑(val.toNat / 16), c⟩ := by
  have hnibble : val.toNat &&& 0xf = val.toNat % 16 := Nat.and_two_pow_sub_one_eq_mod val.toNat 4
  have hcount : val.toNat >>> 4 = val.toNat / 16 := Nat.shiftRight_eq_div_pow ..
  rw [copyResult_from, Rt.ReturnCode.decode, if_neg h]
  simp only [hnibble, hcount, Rt.completed, Rt.dropped, Rt.cancelled]
  split
  · rfl
  · split
    · rfl
    · split <;> rfl

/-! ## What is decoded rightly -/

/-- A value is decoded as packed if its top bit is not set, or its result is none the host
has. -/
theorem decoded_iff (val : BitVec 32) : Decoded val ↔ val.toNat < 2 ^ 31 ∨ 2 < val.toNat % 16 := by
  have hcode : ∀ c : CopyResult, c.code ≤ 2 := by intro c; cases c <;> decide
  rcases Nat.lt_or_ge 2 (val.toNat % 16) with hlow | hlow
  · refine iff_of_true ⟨fun n c hval => ?_, ?_⟩ (.inr hlow)
    · have := hcode c
      omega
    · by_cases hblocked : val.toNat = Rt.blocked
      · rw [decode, if_pos ((toInt_eq_neg_one val).mpr hblocked), hblocked]
        rfl
      · have hfrom : CopyResult.from (val &&& 0xf) = none := by
          rw [copyResult_from, if_neg (by omega), if_neg (by omega), if_neg (by omega)]
        rw [decode, if_neg (mt (toInt_eq_neg_one val).mp hblocked), returnCode_decode val hblocked,
          StreamResult.from, hfrom]
        rfl
  · obtain ⟨c, hc⟩ : ∃ c : CopyResult, val.toNat % 16 = c.code := by
      rcases (by omega : val.toNat % 16 = 0 ∨ val.toNat % 16 = 1 ∨ val.toNat % 16 = 2) with h | h | h
      · exact ⟨.completed, h⟩
      · exact ⟨.dropped, h⟩
      · exact ⟨.cancelled, h⟩
    have hnot : val.toNat ≠ Rt.blocked := by
      intro h
      rw [h] at hlow
      exact absurd hlow (by decide)
    have hfrom : StreamResult.from val = some ⟨(val.sshiftRight 4).toInt, c⟩ := by
      rw [StreamResult.from, copyResult_from_of_code hc]
      rfl
    have hdecode : decode val = some (some ⟨(val.sshiftRight 4).toInt, c⟩) := by
      rw [decode, if_neg (mt (toInt_eq_neg_one val).mp hnot), hfrom]
      rfl
    have hsign : Decoded val ↔ (val.sshiftRight 4).toInt = ↑(val.toNat / 16) := by
      constructor
      · intro h
        obtain ⟨hresult, -⟩ := h.result (val.toNat / 16) c (by omega)
        rw [hfrom] at hresult
        exact congrArg StreamResult.progress (Option.some.inj hresult)
      · intro hcount
        refine ⟨fun n c' hval => ?_, ?_⟩
        · have := hcode c'
          obtain ⟨rfl, hc'⟩ : n = val.toNat / 16 ∧ val.toNat % 16 = c'.code := by omega
          obtain rfl : c = c' := by
            rw [hc] at hc'
            revert hc'
            cases c <;> cases c' <;> decide
          exact ⟨by rw [hfrom, hcount], by rw [hdecode]; nofun⟩
        · rw [hdecode, returnCode_decode val hnot, copyResult_from_of_code hc, hcount]
          rfl
    rw [hsign, toInt_sshiftRight]
    omega

/-- A transfer of 2²⁷ elements comes back as a negative count. -/
theorem large_count_negative : (0x80000000 : BitVec 32).toNat = 2 ^ 27 * 16 + CopyResult.completed.code ∧
    StreamResult.from 0x80000000 = some ⟨-2 ^ 27, .completed⟩ ∧ ¬Decoded 0x80000000 := by
  refine ⟨by decide, by decide, fun h => ?_⟩
  obtain ⟨hresult, -⟩ := h.result (2 ^ 27) .completed (by decide)
  revert hresult
  decide

end WitBindgen.Moonbit.AsyncAbi
