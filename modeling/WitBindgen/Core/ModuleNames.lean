import WitBindgen.C.NameWords
import WitBindgen.Cpp.SymbolName

/-!
# Names of modules and packages

`name_package_module` names the module of a package: its name in snake case, and behind it
the version where the resolve has several packages of that name. Nothing stands between
the two, and the separators of the version all become underscores.

MoonBit packages are named after the interface without its version. `Ns::tmp` tells two
versions apart, and the package is written into the directory that has slashes for the
dots of its name.
-/

namespace WitBindgen.Core

open WitBindgen.Cpp (Label Version)
open WitBindgen.C (toSnakeCase replaceChars words Ns)

structure PackageName where
  nameSpace : Label
  name : Label
  version : Option Version
deriving DecidableEq

/-- What the names are made of in a `Resolve`: no two packages have one name and version. -/
structure Packages where
  packages : List PackageName
  nodup : packages.Nodup
  /-- The interfaces that have a name, with their packages. -/
  interfaces : List (Label × Fin packages.length)

def labelText (l : Label) : String := String.ofList l.1

namespace Packages

variable (r : Packages)

abbrev PackageId := Fin r.packages.length

abbrev InterfaceId := Fin r.interfaces.length

def package (id : r.PackageId) : PackageName := r.packages.get id

/-! ## `name_package_module` -/

def versionsWithSameName (id : r.PackageId) : List (Option Version) :=
  (r.packages.filter fun p =>
    p.nameSpace = (r.package id).nameSpace ∧ p.name = (r.package id).name).map (·.version)

/-- A version as it goes into a module's name. -/
def mangledVersion (version : Version) : String :=
  String.ofList version.1 |> replaceChars (fun c => if c = '.' then '_' else c) |>
    replaceChars (fun c => if c = '-' then '_' else c) |>
    replaceChars (fun c => if c = '+' then '_' else c) |> toSnakeCase

def namePackageModule (id : r.PackageId) : String :=
  let base := toSnakeCase (labelText (r.package id).name)
  if (r.versionsWithSameName id).length = 1 then base
  else
    match (r.package id).version with
    | some version => base ++ mangledVersion version
    | none => base

/-! ## MoonBit packages -/

inductive WorldKey where
  | name (name : Label)
  | interface (id : r.InterfaceId)
deriving DecidableEq

inductive Direction where
  | import_
  | export_
deriving DecidableEq

variable {r} in
def interfaceName : r.WorldKey → String
  | .name name => "interface." ++ labelText name
  | .interface id =>
    let iface := r.interfaces.get id
    let pkg := r.package iface.2
    "interface." ++ labelText pkg.nameSpace ++ "." ++ labelText pkg.name ++ "." ++ labelText iface.1

variable {r} in
/-- The name that `import_interface` and `export_interface` ask for. -/
def requested (genDir : String) : Direction × r.WorldKey → String
  | (.import_, key) => interfaceName key
  | (.export_, key) => genDir ++ "." ++ interfaceName key

variable {r} in
/-- The names that the interfaces of a world get, one after the other. -/
def packageNames (genDir : String) : Ns → List (Direction × r.WorldKey) → List String
  | _, [] => []
  | ns, call :: calls =>
    let (name, ns) := ns.tmpName (requested genDir call)
    name :: packageNames genDir ns calls

def directory (name : String) : String := replaceChars (fun c => if c = '.' then '/' else c) name

/-! ## What names and versions read -/

/-- What stands between the dashes of a name, in small letters. -/
def labelWords (l : Label) : List String :=
  (l.1.splitOn '-').map fun w => String.ofList (w.map Char.toLower)

/-- What stands between the separators of a version and the changes of case in it, in small
letters. -/
def versionWords (version : Version) : List String := words (String.ofList version.1)

/-- Another package has the name as well. -/
def Shared (id : r.PackageId) : Prop := ∃ p ∈ r.packages, p ≠ r.package id ∧
  p.nameSpace = (r.package id).nameSpace ∧ p.name = (r.package id).name

instance (id : r.PackageId) : Decidable (r.Shared id) :=
  inferInstanceAs (Decidable (∃ p ∈ r.packages, _))

/-- The words of the version, where the name is not enough. -/
def writtenVersion (id : r.PackageId) : List String :=
  if r.Shared id then (r.package id).version.elim [] versionWords else []

/-- The words are the same; or `q`'s name goes on where `p`'s ends, with `d` directly behind its
last word and the words `es`, and the version of `p` begins so too and goes on as that of `q`. -/
inductive RunsInto (p q : r.PackageId) : Prop
  | same (hname : labelWords (r.package p).name = labelWords (r.package q).name)
      (hversion : r.writtenVersion p = r.writtenVersion q)
  | longer {ws : List String} {w d : String} {es : List String}
      (hp : labelWords (r.package p).name = ws ++ [w])
      (hq : labelWords (r.package q).name = ws ++ (w ++ d) :: es)
      (hversion : r.writtenVersion p = runTogether (d :: es) (r.writtenVersion q))

theorem isLower_eq (c : Char) : c.isLower = (decide (c.val ≥ 'a'.val) && decide (c.val ≤ 'z'.val)) := rfl

theorem isUpper_eq (c : Char) : c.isUpper = decide (c.val ≥ 'A'.val ∧ c.val ≤ 'Z'.val) := rfl

theorem scanWords_isWord {w : List Char} (h : Cpp.isWord w = true) :
    C.scanWords .boundary [] w = [w] := by
  rw [Cpp.isWord, Bool.and_eq_true, Bool.or_eq_true, List.all_eq_true, List.all_eq_true] at h
  have hne : w ≠ [] := by simpa using h.1
  rcases h.2 with hsmall | hcapital
  · refine C.scanWords_small hne fun c hc => ?_
    have hclass := hsmall c hc
    simp only [Bool.or_eq_true, isLower_eq, Char.isDigit, isUpper_eq, Bool.and_eq_true,
      decide_eq_true_eq, ← Bool.not_eq_true] at hclass ⊢
    simp only [ge_iff_le, UInt32.le_iff_toNat_le] at hclass ⊢
    have h97 : 'a'.val.toNat = 97 := rfl
    have h57 : '9'.val.toNat = 57 := rfl
    have h65 : 'A'.val.toNat = 65 := rfl
    have h90 : 'Z'.val.toNat = 90 := rfl
    omega
  · refine C.scanWords_capital hne (by simp) fun c hc => ?_
    have hclass := hcapital c hc
    simp only [Bool.or_eq_true, isLower_eq, Char.isDigit, isUpper_eq, Bool.and_eq_true,
      decide_eq_true_eq, ← Bool.not_eq_true] at hclass ⊢
    simp only [ge_iff_le, UInt32.le_iff_toNat_le] at hclass ⊢
    have h97 : 'a'.val.toNat = 97 := rfl
    have h57 : '9'.val.toNat = 57 := rfl
    have h90 : 'Z'.val.toNat = 90 := rfl
    omega

theorem words_labelText (l : Label) : words (labelText l) = labelWords l := by
  have hsplit : l.1.splitOnP (fun c => !c.isAlphanum) = l.1.splitOn '-' := by
    rw [List.splitOn_eq_splitOnP]
    refine List.splitOnP_congr fun c hc => ?_
    rcases Cpp.Label.char hc with hclass | rfl
    · rw [hclass, Bool.not_true, eq_comm, beq_eq_false_iff_ne]
      rintro rfl
      revert hclass
      decide
    · rfl
  have hlabel := l.2
  rw [Cpp.isLabel, Bool.and_eq_true, List.all_eq_true] at hlabel
  rw [C.words, labelText, String.toList_ofList, hsplit, labelWords]
  congr 1
  refine (List.flatMap_congr fun w hw => scanWords_isWord (hlabel.1 w hw)).trans ?_
  exact List.flatMap_singleton' _

theorem mangledVersion_eq (version : Version) :
    mangledVersion version = "_".intercalate (versionWords version) := by
  have hsep : ∀ x : Char, x.isAlphanum = false → ∀ s : String,
      words (replaceChars (fun c => if c = x then '_' else c) s) = words s := by
    intro x hx s
    refine C.words_replaceChars (fun c => ?_) (fun c hc => if_neg ?_) s
    · split
      · next heq => rw [heq, hx]; rfl
      · rfl
    · rintro rfl
      rw [hx] at hc
      cases hc
  rw [mangledVersion, toSnakeCase, hsep '+' rfl, hsep '-' rfl, hsep '.' rfl]
  rfl

theorem versions_alone (id : r.PackageId) :
    (r.versionsWithSameName id).length = 1 ↔ ¬ r.Shared id := by
  have hmem : ∀ p, p ∈ r.packages.filter (fun p =>
      p.nameSpace = (r.package id).nameSpace ∧ p.name = (r.package id).name) ↔ p ∈ r.packages ∧
        p.nameSpace = (r.package id).nameSpace ∧ p.name = (r.package id).name := by
    intro p
    rw [List.mem_filter, decide_eq_true_eq]
  have hself := (hmem (r.package id)).mpr ⟨List.get_mem .., rfl, rfl⟩
  have hnodup := r.nodup.filter fun p =>
    decide (p.nameSpace = (r.package id).nameSpace ∧ p.name = (r.package id).name)
  rw [versionsWithSameName, List.length_map]
  constructor
  · rintro hone ⟨p, hp, hne, hname⟩
    obtain ⟨x, hx⟩ := List.length_eq_one_iff.mp hone
    rw [hx] at hself
    have hp' := (hmem p).mpr ⟨hp, hname⟩
    rw [hx] at hp'
    exact hne ((List.mem_singleton.mp hp').trans (List.mem_singleton.mp hself).symm)
  · intro hno
    refine List.length_eq_one_iff.mpr ⟨r.package id, ?_⟩
    refine List.perm_singleton.mp ((List.perm_ext_iff_of_nodup hnodup (List.nodup_singleton _)).mpr
      fun p => ?_)
    rw [List.mem_singleton]
    refine ⟨fun hp => ?_, fun hp => hp ▸ hself⟩
    by_contra hne
    exact hno ⟨p, ((hmem p).mp hp).1, hne, ((hmem p).mp hp).2⟩

/-! ## When modules clash -/

theorem namePackageModule_eq (id : r.PackageId) : r.namePackageModule id =
    "_".intercalate (labelWords (r.package id).name) ++ "_".intercalate (r.writtenVersion id) := by
  have hbase : toSnakeCase (labelText (r.package id).name) =
      "_".intercalate (labelWords (r.package id).name) := by
    rw [toSnakeCase, words_labelText]
  unfold namePackageModule writtenVersion
  dsimp only
  rw [hbase]
  generalize "_".intercalate (labelWords (r.package id).name) = base
  have halone := r.versions_alone id
  by_cases hshared : r.Shared id
  · have hmany : ¬ (r.versionsWithSameName id).length = 1 := fun hone => halone.mp hone hshared
    rw [if_neg hmany, if_pos hshared]
    cases (r.package id).version with
    | some version =>
      show base ++ mangledVersion version = _
      rw [mangledVersion_eq]
      rfl
    | none => exact String.append_empty.symm
  · rw [if_pos (halone.mpr hshared), if_neg hshared]
    exact String.append_empty.symm

variable {r} in
/-- The words of names and versions have no underscores. -/
theorem labelWords_spelled (l : Label) : C.SpelledOut ("_".intercalate (labelWords l)) (labelWords l) := by
  have hwords : words (labelText l) ≠ [] := by
    rw [words_labelText, labelWords]
    exact fun hnil => List.splitOn_ne_nil _ _ (List.map_eq_nil_iff.mp hnil)
  rw [← words_labelText]
  exact C.toSnakeCase_spelled hwords

theorem writtenVersion_spelled (id : r.PackageId) (h : r.writtenVersion id ≠ []) :
    C.SpelledOut ("_".intercalate (r.writtenVersion id)) (r.writtenVersion id) := by
  refine ⟨h, fun w hw hmem => ?_, rfl⟩
  unfold writtenVersion at hw
  split at hw
  · cases hversion : (r.package id).version with
    | none => rw [hversion] at hw; cases hw
    | some version =>
      rw [hversion] at hw
      exact (C.words_clean hw _ hmem).1 rfl
  · cases hw

theorem writtenVersion_nil {id : r.PackageId} (h : "_".intercalate (r.writtenVersion id) = "") :
    r.writtenVersion id = [] := by
  by_contra hne
  have hread := (r.writtenVersion_spelled id hne).readBack
  rw [h] at hread
  have hmem : "" ∈ r.writtenVersion id := by
    obtain ⟨w, ws, hws⟩ := List.exists_cons_of_ne_nil hne
    rw [hws] at hread ⊢
    have hw : w.toList = "".toList := (List.cons.inj hread).1.symm
    rw [String.toList_inj.mp hw]
    exact List.mem_cons_self
  unfold writtenVersion at hmem
  split at hmem
  · cases hversion : (r.package id).version with
    | none => rw [hversion] at hmem; cases hmem
    | some version =>
      rw [hversion] at hmem
      exact C.words_ne hmem rfl
  · cases hmem

variable {r} in
/-- A name that is longer than another by the beginning of its version. -/
theorem RunsInto.of_append {p q : r.PackageId} {t : String}
    (hname : "_".intercalate (labelWords (r.package q).name) =
      "_".intercalate (labelWords (r.package p).name) ++ t)
    (hversion : "_".intercalate (r.writtenVersion p) = t ++ "_".intercalate (r.writtenVersion q)) :
    r.RunsInto p q := by
  have hp := labelWords_spelled (r.package p).name
  have hq := labelWords_spelled (r.package q).name
  by_cases ht : t = ""
  · subst ht
    rw [String.append_empty] at hname
    rw [String.empty_append] at hversion
    refine .same ((hp.eq_iff hq).mp hname.symm) ?_
    by_cases hnone : r.writtenVersion p = []
    · rw [hnone] at hversion ⊢
      exact (r.writtenVersion_nil hversion.symm).symm
    · have hsome : r.writtenVersion q ≠ [] := fun hnil => by
        rw [hnil] at hversion
        exact hnone (r.writtenVersion_nil hversion)
      exact ((r.writtenVersion_spelled p hnone).eq_iff (r.writtenVersion_spelled q hsome)).mp hversion
  · have hsplit : C.SpelledOut t _ := Spells.split t
    obtain ⟨d, es, hds⟩ := List.exists_cons_of_ne_nil hsplit.some_word
    have hspelled : C.SpelledOut t (d :: es) := hds ▸ hsplit
    obtain ⟨ws, w, hws⟩ := (List.eq_nil_or_concat _).resolve_left hp.some_word
    rw [List.concat_eq_append] at hws
    have hlonger : labelWords (r.package q).name = ws ++ (w ++ d) :: es := by
      rw [← runTogether_concat, ← hws]
      exact (hq.eq_iff (hp.runTogether hspelled)).mp hname
    refine .longer hws hlonger ?_
    have hsome : r.writtenVersion p ≠ [] := fun hnil => by
      rw [hnil] at hversion
      have hempty := congrArg String.toList hversion
      rw [String.toList_append] at hempty
      exact ht (String.toList_inj.mp (List.append_eq_nil_iff.mp hempty.symm).1)
    by_cases hnone : r.writtenVersion q = []
    · rw [hnone] at hversion ⊢
      refine ((r.writtenVersion_spelled p hsome).eq_iff hspelled).mp (hversion.trans ?_)
      exact String.append_empty
    · exact ((r.writtenVersion_spelled p hsome).eq_iff
        (hspelled.runTogether (r.writtenVersion_spelled q hnone))).mp hversion

variable {r} in
theorem RunsInto.eq {p q : r.PackageId} (h : r.RunsInto p q) :
    r.namePackageModule p = r.namePackageModule q := by
  rw [namePackageModule_eq, namePackageModule_eq]
  cases h with
  | same hname hversion => rw [hname, hversion]
  | longer hp hq hversion =>
    rw [hp, hq, hversion, ← runTogether_concat, intercalate_runTogether _ (List.cons_ne_nil _ _),
      intercalate_runTogether _ (List.append_ne_nil_of_right_ne_nil _ (List.cons_ne_nil _ _)),
      String.append_assoc]

theorem namePackageModule_eq_iff (p q : r.PackageId) :
    r.namePackageModule p = r.namePackageModule q ↔ r.RunsInto p q ∨ r.RunsInto q p := by
  constructor
  · intro h
    rw [namePackageModule_eq, namePackageModule_eq] at h
    have hlist := congrArg String.toList h
    rw [String.toList_append, String.toList_append, List.append_eq_append_iff] at hlist
    rcases hlist with ⟨t, hname, hversion⟩ | ⟨t, hname, hversion⟩
    · refine Or.inl (.of_append (t := String.ofList t) ?_ ?_)
      · rw [← String.toList_inj, String.toList_append, String.toList_ofList, hname]
      · rw [← String.toList_inj, String.toList_append, String.toList_ofList, hversion]
    · refine Or.inr (.of_append (t := String.ofList t) ?_ ?_)
      · rw [← String.toList_inj, String.toList_append, String.toList_ofList, hname]
      · rw [← String.toList_inj, String.toList_append, String.toList_ofList, hversion]
  · rintro (h | h)
    · exact h.eq
    · exact h.eq.symm

/-! ## When packages clash -/

/-- The words of a package's name, `d` behind the last one. -/
def nameWords (d : String) : r.WorldKey → List String
  | .name name => ["interface", labelText name ++ d]
  | .interface id =>
    let iface := r.interfaces.get id
    let pkg := r.package iface.2
    ["interface", labelText pkg.nameSpace, labelText pkg.name, labelText iface.1 ++ d]

/-- What `tmp` puts behind a name: nothing, or a number. -/
def IsCounter (d : String) : Prop := ∀ c ∈ d.toList, c.isDigit = true

theorem search_counter (ns : Ns) (name : String) (n : Nat) {d : String} (hd : IsCounter d) (k : Nat) :
    ∃ d', IsCounter d' ∧ (ns.search name n (name ++ d) k).1 = name ++ d' := by
  induction n generalizing d k with
  | zero => exact ⟨d, hd, rfl⟩
  | succ n ih =>
    rw [Ns.search]
    split
    · refine ih (d := toString k) (fun c hc => ?_) (k + 1)
      have hc : c ∈ (Nat.repr k).toList := hc
      rw [Nat.toList_repr] at hc
      exact Nat.isDigit_of_mem_toDigits (by omega) (by omega) hc
    · exact ⟨d, hd, rfl⟩

theorem tmpName_counter (ns : Ns) (name : String) :
    ∃ d, IsCounter d ∧ (ns.tmpName name).1 = name ++ d := by
  have hnone : IsCounter "" := fun c hc => nomatch hc
  have hsearch := search_counter ns name (ns.defined.length + 1) hnone ns.tmp
  rw [String.append_empty] at hsearch
  exact hsearch

theorem tmpName_free {ns : Ns} {name : String} (h : name ∉ ns.defined) :
    (ns.tmpName name).1 = name := by
  unfold Ns.tmpName
  rw [Ns.search, if_neg h]

variable {r} {genDir : String} {ns : Ns} {calls : List (Direction × r.WorldKey)}

/-- All names are different, and none of them was taken. -/
theorem packageNames_nodup (calls : List (Direction × r.WorldKey)) (ns : Ns) :
    (packageNames genDir ns calls).Nodup ∧
      ∀ name ∈ packageNames genDir ns calls, name ∉ ns.defined := by
  induction calls generalizing ns with
  | nil => exact ⟨List.nodup_nil, fun name h => nomatch h⟩
  | cons call calls ih =>
    obtain ⟨hnodup, hfree⟩ := ih (ns.tmpName (requested genDir call)).2
    have hdefined : (ns.tmpName (requested genDir call)).2.defined =
        (ns.tmpName (requested genDir call)).1 :: ns.defined := rfl
    rw [hdefined] at hfree
    refine ⟨List.nodup_cons.mpr ⟨fun hmem => ?_, hnodup⟩, fun name hname => ?_⟩
    · exact hfree _ hmem (List.mem_cons_self ..)
    · rcases List.mem_cons.mp hname with rfl | hname
      · exact C.tmpName_fresh ns _
      · exact fun hmem => hfree name hname (List.mem_cons_of_mem _ hmem)

/-- Every name is one that was asked for, with a number behind it at most. -/
theorem mem_packageNames {name : String} (h : name ∈ packageNames genDir ns calls) :
    ∃ call ∈ calls, ∃ d, IsCounter d ∧ name = requested genDir call ++ d := by
  induction calls generalizing ns with
  | nil => cases h
  | cons call calls ih =>
    rcases List.mem_cons.mp h with rfl | h
    · obtain ⟨d, hd, hname⟩ := tmpName_counter ns (requested genDir call)
      exact ⟨call, List.mem_cons_self .., d, hd, hname⟩
    · obtain ⟨call', hmem, hname⟩ := ih h
      exact ⟨call', List.mem_cons_of_mem _ hmem, hname⟩

theorem labelText_clean (l : Label) {c : Char} (h : c.isAlphanum = false) (h' : c ≠ '-') :
    c ∉ (labelText l).toList := by
  unfold labelText
  rw [String.toList_ofList]
  exact l.notMem h h'

theorem counter_clean {d : String} (hd : IsCounter d) {c : Char} (h : c.isAlphanum = false) :
    c ∉ d.toList := by
  intro hc
  have hdigit := hd c hc
  rw [Char.isAlphanum, hdigit, Bool.or_true] at h
  cases h

/-- There is neither a dot nor a slash in a word. -/
theorem nameWords_clean {d : String} (hd : IsCounter d) (key : r.WorldKey) {c : Char}
    (h : c.isAlphanum = false) (h' : c ≠ '-') : ∀ w ∈ r.nameWords d key, c ∉ w.toList := by
  have hinterface : c ∉ "interface".toList := by
    intro hc
    have hall : "interface".toList.all Char.isAlphanum = true := by decide +kernel
    rw [List.all_eq_true.mp hall c hc] at h
    cases h
  have hlast : ∀ l : Label, c ∉ (labelText l ++ d).toList := by
    intro l hc
    rw [String.toList_append] at hc
    rcases List.mem_append.mp hc with hc | hc
    · exact labelText_clean l h h' hc
    · exact counter_clean hd h hc
  cases key with
  | name name =>
    intro w hw
    simp only [nameWords, List.mem_cons, List.not_mem_nil, or_false] at hw
    rcases hw with rfl | rfl
    · exact hinterface
    · exact hlast _
  | interface id =>
    intro w hw
    simp only [nameWords, List.mem_cons, List.not_mem_nil, or_false] at hw
    rcases hw with rfl | rfl | rfl | rfl
    · exact hinterface
    · exact labelText_clean _ h h'
    · exact labelText_clean _ h h'
    · exact hlast _

/-- A name is its words with dots between them. -/
theorem interfaceName_spells {d : String} (hd : IsCounter d) (key : r.WorldKey) :
    Spells '.' (interfaceName key ++ d) (r.nameWords d key) := by
  have hclean := nameWords_clean hd key (c := '.') rfl (by decide)
  have hinterface : "interface." = "interface" ++ String.singleton '.' := rfl
  have hdot : "." = String.singleton '.' := rfl
  cases key with
  | name name =>
    have hspells := Spells.cons (hclean _ (List.mem_cons_self ..))
      (Spells.word (hclean _ (List.mem_cons_of_mem _ (List.mem_cons_self ..))))
    unfold interfaceName
    rwa [hinterface, String.append_assoc]
  | interface id =>
    simp only [nameWords, List.forall_mem_cons] at hclean
    obtain ⟨hw, hns, hpkg, hiface, -⟩ := hclean
    have hspells := Spells.cons hw (.cons hns (.cons hpkg (.word hiface)))
    unfold interfaceName
    dsimp only
    rw [hinterface, hdot]
    simp only [String.append_assoc] at hspells ⊢
    exact hspells

/-! ## Directories -/

theorem directory_append (s t : String) : directory (s ++ t) = directory s ++ directory t := by
  unfold directory replaceChars
  rw [String.toList_append, List.map_append, String.ofList_append]

theorem directory_clean {s : String} (h : '.' ∉ s.toList) : directory s = s := by
  unfold directory replaceChars
  have hmap : s.toList.map (fun c => if c = '.' then '/' else c) = s.toList := by
    refine (List.map_congr_left fun c hc => ?_).trans (List.map_id _)
    rw [if_neg (by rintro rfl; exact h hc)]
    rfl
  rw [hmap, String.ofList_toList]

/-- The directory of a name is its words with slashes between them. -/
theorem directory_spells {s : String} {ws : List String} (h : Spells '.' s ws)
    (hclean : ∀ w ∈ ws, '/' ∉ w.toList) : Spells '/' (directory s) ws := by
  refine ⟨h.some_word, hclean, ?_⟩
  rw [h.eq]
  have hdots := h.clean
  clear h hclean
  induction ws with
  | nil => rfl
  | cons w ws ih =>
    have hw := directory_clean (hdots w (List.mem_cons_self ..))
    cases ws with
    | nil => rw [String.intercalate_singleton, String.intercalate_singleton, hw]
    | cons w' ws =>
      have hne : w' :: ws ≠ [] := List.cons_ne_nil _ _
      have hone : [w] ≠ [] := List.cons_ne_nil _ _
      have hcons : w :: w' :: ws = [w] ++ (w' :: ws) := rfl
      rw [hcons, String.intercalate_append_of_ne_nil hone hne,
        String.intercalate_append_of_ne_nil hone hne, directory_append, directory_append,
        ih fun x hx => hdots x (List.mem_cons_of_mem _ hx), String.intercalate_singleton,
        String.intercalate_singleton, hw]
      rfl

/-- The words of a directory of `genDir`. -/
def genWords (genDir : String) : List String :=
  ((directory genDir).toList.splitOn '/').map String.ofList

theorem export_spells {d : String} (hd : IsCounter d) (key : r.WorldKey) :
    Spells '/' (directory (requested genDir (.export_, key) ++ d))
      (genWords genDir ++ r.nameWords d key) := by
  have hname := directory_spells (interfaceName_spells hd key)
    (nameWords_clean hd key (c := '/') rfl (by decide))
  have hgen : Spells '/' (directory genDir) (genWords genDir) := Spells.split (directory genDir)
  have hspells := hgen.append hname
  have hdirectory : directory (requested genDir (.export_, key) ++ d) =
      directory genDir ++ String.singleton '/' ++ directory (interfaceName key ++ d) := by
    unfold requested
    dsimp only
    rw [String.append_assoc, directory_append, directory_append]
    rfl
  rw [hdirectory]
  exact hspells

/-- `genDir` together with an export spells the name of an import: it is `interface` and the
namespace of a package that is itself called `interface`. -/
theorem import_export_clash {d d' : String} (hd : IsCounter d) (hd' : IsCounter d')
    {key key' : r.WorldKey} (h : directory (interfaceName key ++ d) =
      directory (requested genDir (.export_, key') ++ d')) :
    ∃ id : r.InterfaceId, key = .interface id ∧
      labelText (r.package (r.interfaces.get id).2).name = "interface" ∧
      genWords genDir = ["interface", labelText (r.package (r.interfaces.get id).2).nameSpace] ∧
      r.nameWords d key = ["interface", labelText (r.package (r.interfaces.get id).2).nameSpace] ++
        r.nameWords d' key' := by
  have hname := directory_spells (interfaceName_spells hd key)
    (nameWords_clean hd key (c := '/') rfl (by decide))
  have hwords := (hname.eq_iff (export_spells hd' key')).mp h
  have hgen : genWords genDir ≠ [] := (Spells.split (directory genDir)).some_word
  generalize hg : genWords genDir = gs at hwords hgen ⊢
  cases key with
  | name n =>
    exfalso
    have hlen := congrArg List.length hwords
    cases gs with
    | nil => exact hgen rfl
    | cons g gs => cases key' <;> simp [nameWords] at hlen
  | interface id =>
    have hlen := congrArg List.length hwords
    cases key' with
    | interface id' =>
      exfalso
      cases gs with
      | nil => exact hgen rfl
      | cons g gs => simp [nameWords] at hlen
    | name n =>
      refine ⟨id, rfl, ?_⟩
      match gs, hgen with
      | [g₁, g₂], _ =>
        simp only [nameWords, List.cons_append, List.nil_append] at hwords
        injection hwords with h₁ hwords
        injection hwords with h₂ hwords
        injection hwords with h₃ hwords
        refine ⟨h₃, by rw [← h₁, ← h₂], ?_⟩
        simp only [nameWords, List.cons_append, List.nil_append]
        rw [h₃, hwords]
      | [g], _ => simp [nameWords] at hlen
      | g₁ :: g₂ :: g₃ :: gs, _ => simp [nameWords] at hlen

theorem of_map_directory {xs ys : List Char} (h : xs.map (fun c => if c = '.' then '/' else c) = ys)
    (hys : '/' ∉ ys) : xs = ys := by
  rw [← h]
  refine ((List.map_congr_left fun c hc => ?_).trans (List.map_id xs)).symm
  split
  · next hdot =>
      refine absurd (List.mem_map.mpr ⟨c, hc, ?_⟩) (h ▸ hys)
      rw [if_pos hdot]
  · rfl

/-- Between two words that are put together there was a slash or a dot. -/
theorem genDir_of_words {l : Label} (h : genWords genDir = ["interface", labelText l]) :
    genDir = "interface/" ++ labelText l ∨ genDir = "interface." ++ labelText l := by
  have hspells : Spells '/' (directory genDir) _ := Spells.split (directory genDir)
  have hdirectory : directory genDir = "interface" ++ String.singleton '/' ++ labelText l := by
    rw [hspells.eq]
    unfold genWords at h
    rw [h]
    have hcons : ["interface", labelText l] = ["interface"] ++ [labelText l] := rfl
    rw [hcons, String.intercalate_append_of_ne_nil (List.cons_ne_nil _ _) (List.cons_ne_nil _ _),
      String.intercalate_singleton, String.intercalate_singleton]
  have hlist := congrArg String.toList hdirectory
  unfold directory replaceChars at hlist
  rw [String.toList_ofList, String.toList_append, String.toList_append, String.toList_singleton,
    List.append_assoc, List.map_eq_append_iff] at hlist
  obtain ⟨l₁, l₂, hsplit, h₁, h₂⟩ := hlist
  rw [List.singleton_append, List.map_eq_cons_iff] at h₂
  obtain ⟨c, l₃, rfl, hc, h₃⟩ := h₂
  have h₁ := of_map_directory h₁ (by decide +kernel)
  have h₃ := of_map_directory h₃ (labelText_clean l rfl (by decide))
  have hgen : ∀ c, genDir.toList = "interface".toList ++ c :: (labelText l).toList →
      genDir = "interface" ++ String.singleton c ++ labelText l := by
    intro c h
    rw [← String.toList_inj, h]
    simp
  rw [h₁, h₃] at hsplit
  by_cases hdot : c = '.'
  · subst hdot
    exact Or.inr (hgen '.' hsplit)
  · rw [if_neg hdot] at hc
    subst hc
    exact Or.inl (hgen '/' hsplit)

/-- `genDir` is below `interface`, in the directory of a namespace that has a package called
`interface`. -/
def GenDirClash (r : Packages) (genDir : String) : Prop :=
  ∃ id : r.InterfaceId, labelText (r.package (r.interfaces.get id).2).name = "interface" ∧
    genDir = "interface/" ++ labelText (r.package (r.interfaces.get id).2).nameSpace

/-- An import and an export that are written into one directory have one name. -/
theorem import_export_name {d d' : String} (hd : IsCounter d) (hd' : IsCounter d')
    {key key' : r.WorldKey} (hgen : ¬ GenDirClash r genDir) (h : directory (interfaceName key ++ d) =
      directory (requested genDir (.export_, key') ++ d')) :
    interfaceName key ++ d = requested genDir (.export_, key') ++ d' := by
  obtain ⟨id, rfl, hpkg, hwords, hnames⟩ := import_export_clash hd hd' h
  rcases genDir_of_words hwords with hslash | hdot
  · exact absurd ⟨id, hpkg, hslash⟩ hgen
  · have hns := labelText_clean (r.package (r.interfaces.get id).2).nameSpace (c := '.') rfl (by decide)
    have hword : '.' ∉ "interface".toList := by decide +kernel
    have hexport := Spells.cons hword (.cons hns (interfaceName_spells hd' key'))
    have heq := ((interfaceName_spells hd (.interface id)).eq_iff hexport).mpr hnames
    rw [heq]
    unfold requested
    dsimp only
    rw [hdot]
    have hinterface : "interface." = "interface" ++ String.singleton '.' := rfl
    have hdots : "." = String.singleton '.' := rfl
    rw [hinterface, hdots]
    simp only [String.append_assoc]

theorem directories_nodup (hgen : ¬ GenDirClash r genDir) (calls : List (Direction × r.WorldKey))
    (ns : Ns) : ((packageNames genDir ns calls).map directory).Nodup := by
  refine List.Nodup.map_on (fun x hx y hy hxy => ?_) (packageNames_nodup calls ns).1
  obtain ⟨⟨dir, key⟩, -, d, hd, rfl⟩ := mem_packageNames hx
  obtain ⟨⟨dir', key'⟩, -, d', hd', rfl⟩ := mem_packageNames hy
  have hspells := interfaceName_spells hd key
  have hspells' := interfaceName_spells hd' key'
  have hclean := nameWords_clean hd key (c := '/') rfl (by decide)
  have hclean' := nameWords_clean hd' key' (c := '/') rfl (by decide)
  cases dir with
  | import_ =>
    cases dir' with
    | import_ =>
      have hwords := ((directory_spells hspells hclean).eq_iff
        (directory_spells hspells' hclean')).mp hxy
      exact (hspells.eq_iff hspells').mpr hwords
    | export_ => exact import_export_name hd hd' hgen hxy
  | export_ =>
    cases dir' with
    | import_ => exact (import_export_name hd' hd hgen hxy.symm).symm
    | export_ =>
      have hwords := ((export_spells hd key).eq_iff (export_spells hd' key')).mp hxy
      have hname := (hspells.eq_iff hspells').mpr (List.append_cancel_left hwords)
      unfold requested
      dsimp only
      rw [String.append_assoc, hname, ← String.append_assoc]

/-- The clash, in a world that imports the interface and exports one with its name. -/
theorem genDir_clashes (h : GenDirClash r genDir) : ∃ calls : List (Direction × r.WorldKey),
    calls.Nodup ∧ ¬ ((packageNames genDir .empty calls).map directory).Nodup := by
  obtain ⟨id, hpkg, hgen⟩ := h
  generalize hns : (r.package (r.interfaces.get id).2).nameSpace = ns at hgen
  generalize hiface : (r.interfaces.get id).1 = iface
  have hnone : IsCounter "" := fun c hc => nomatch hc
  have himport : Spells '/' (directory (interfaceName (.interface id : r.WorldKey) ++ "")) _ :=
    directory_spells (interfaceName_spells hnone _) (nameWords_clean hnone _ rfl (by decide))
  have hexport : Spells '/' (directory (requested genDir
      ((.export_, .name iface) : Direction × r.WorldKey) ++ "")) _ := export_spells hnone _
  rw [String.append_empty] at himport hexport
  have hdirGen : directory genDir = genDir := by
    refine directory_clean ?_
    rw [hgen, String.toList_append]
    intro hmem
    rcases List.mem_append.mp hmem with hmem | hmem
    · exact absurd hmem (by decide +kernel)
    · exact labelText_clean ns rfl (by decide) hmem
  have hgenWords : genWords genDir = ["interface", labelText ns] := by
    have hword : '/' ∉ "interface".toList := by decide +kernel
    have hslashes : Spells '/' (directory genDir) ["interface", labelText ns] := by
      rw [hdirGen, hgen]
      exact Spells.cons hword (Spells.word (labelText_clean ns rfl (by decide)))
    exact ((Spells.split (directory genDir)).eq_iff hslashes).mp rfl
  have hdirectory : directory (interfaceName (.interface id : r.WorldKey)) =
      directory (requested genDir ((.export_, .name iface) : Direction × r.WorldKey)) := by
    refine (himport.eq_iff hexport).mpr ?_
    rw [hgenWords]
    simp only [nameWords, List.cons_append, List.nil_append]
    rw [hpkg, hns, hiface]
  -- the name of the export has a slash in it, so that it is not taken
  have hne : requested genDir ((.export_, .name iface) : Direction × r.WorldKey) ∉
      [interfaceName (.interface id : r.WorldKey)] := by
    intro hmem
    have hslash : '/' ∈ (requested genDir ((.export_, .name iface) : Direction × r.WorldKey)).toList := by
      unfold requested
      dsimp only
      rw [hgen]
      simp
    rw [List.mem_singleton.mp hmem] at hslash
    have hclean := nameWords_clean hnone (.interface id : r.WorldKey) (c := '/') rfl (by decide)
    have hspells := interfaceName_spells hnone (.interface id : r.WorldKey)
    rw [String.append_empty] at hspells
    rw [hspells.eq, String.toList_intercalate, String.toList_singleton] at hslash
    rcases List.mem_of_mem_intercalate hslash with hdot | ⟨w, hw, hmem⟩
    · exact absurd hdot (by decide)
    · obtain ⟨w', hw', rfl⟩ := List.mem_map.mp hw
      exact hclean w' hw' hmem
  refine ⟨[(.import_, .interface id), (.export_, .name iface)], by simp, fun hnodup => ?_⟩
  have hdefined : (Ns.empty.tmpName (interfaceName (.interface id : r.WorldKey))).2.defined =
      [interfaceName (.interface id)] := rfl
  have hsecond := tmpName_free (hdefined ▸ hne)
  have hnames : packageNames genDir .empty [(.import_, .interface id), (.export_, .name iface)] =
      [interfaceName (.interface id : r.WorldKey), ((Ns.empty.tmpName (interfaceName
        (.interface id : r.WorldKey))).2.tmpName (requested genDir
          ((.export_, .name iface) : Direction × r.WorldKey))).1] := rfl
  rw [hsecond] at hnames
  rw [hnames, List.map_cons, List.map_cons, hdirectory, List.nodup_cons] at hnodup
  exact hnodup.1 (List.mem_cons_self ..)

/-- What the module names and the package names of a resolve are for. -/
structure DistinctNames (r : Packages) (genDir : String) : Prop where
  modules : ∀ p q : r.PackageId, p ≠ q → (r.package p).nameSpace = (r.package q).nameSpace →
    r.namePackageModule p ≠ r.namePackageModule q
  names : ∀ calls : List (Direction × r.WorldKey), calls.Nodup →
    (packageNames genDir .empty calls).Nodup
  directories : ∀ calls : List (Direction × r.WorldKey), calls.Nodup →
    ((packageNames genDir .empty calls).map directory).Nodup

/-- Two versions of `foo` and two of `foo1`. -/
def twoVersions : Packages where
  packages :=
    let ns : Label := ⟨['a'], by decide +kernel⟩
    let foo : Label := ⟨['f', 'o', 'o'], by decide +kernel⟩
    let foo1 : Label := ⟨['f', 'o', 'o', '1'], by decide +kernel⟩
    [⟨ns, foo, some ⟨['1', '0', '.', '0', '.', '0'], by decide⟩⟩,
      ⟨ns, foo, some ⟨['1', '.', '0', '.', '0'], by decide⟩⟩,
      ⟨ns, foo1, some ⟨['0', '.', '0', '.', '0'], by decide⟩⟩,
      ⟨ns, foo1, some ⟨['2', '.', '0', '.', '0'], by decide⟩⟩]
  nodup := by decide +kernel
  interfaces := []

end Packages

end WitBindgen.Core
