import WitBindgen.Wit.Parser
import WitBindgen.Library.Spelling
import Mathlib.Tactic.Common

/-!
# External symbols

`make_external_component` and `make_external_symbol`: the C symbol of an imported or an
exported function. Letters and digits stay, a dash becomes an underscore, and any other
character becomes an `X` with two hexadecimal digits. The `X` is not escaped itself, so a
name may spell an escape out in plain letters.
-/

namespace WitBindgen.Cpp

/-! ## The encoding -/

def hexdigit (v : Nat) : Char :=
  if v < 10 then Char.ofNat ('0'.toNat + v) else Char.ofNat ('A'.toNat - 10 + v)

/-- One character of `make_external_component`. -/
def externalChar (c : Char) : List Char :=
  if c.isAlphanum ∨ c = '_' then [c]
  else if c = '-' then ['_']
  else ['X', hexdigit ((c.toNat &&& 0xf0) >>> 4), hexdigit (c.toNat &&& 0xf)]

def makeExternalComponent (input : List Char) : List Char := input.flatMap externalChar

def makeExternalSymbol (moduleName name : List Char) (variant : AbiVariant) : List Char :=
  if moduleName = [] ∨ moduleName = ['$', 'r', 'o', 'o', 't'] then makeExternalComponent name
  else
    makeExternalComponent moduleName ++
      (if variant = .guestExport then ['X', '2', '3'] else ['X', '0', '0']) ++ makeExternalComponent name

/-! ## Names of modules and functions -/

/-- A word is in small letters, or an acronym in capitals. -/
def isWord (w : List Char) : Bool :=
  !w.isEmpty && (w.all (fun c => c.isLower || c.isDigit) || w.all fun c => c.isUpper || c.isDigit)

def isLabel (s : List Char) : Bool := (s.splitOn '-').all isWord && s.head?.any Char.isAlpha

/-- A name as WIT allows it: words with dashes between them. -/
abbrev Label := { s : List Char // isLabel s = true }

def isVersion (s : List Char) : Bool :=
  s.head?.any Char.isDigit && s.all fun c => c.isAlphanum || c = '.' || c = '-' || c = '+'

abbrev Version := { s : List Char // isVersion s = true }

inductive ModuleName where
  /-- The functions of the world itself. -/
  | root
  | named (name : Label)
  | interface (nameSpace package interface : Label) (version : Option Version)
deriving DecidableEq

def versionSuffix : Option Version → List Char
  | none => []
  | some version => '@' :: version.1

/-- `Resolve::name_world_key`. -/
def ModuleName.text : ModuleName → List Char
  | .root => ['$', 'r', 'o', 'o', 't']
  | .named name => name.1
  | .interface ns package iface version =>
    ns.1 ++ ':' :: (package.1 ++ '/' :: (iface.1 ++ versionSuffix version))

inductive FunctionName where
  | freestanding (name : Label)
  | method (resource name : Label)
  | static (resource name : Label)
  | constructor (resource : Label)
deriving DecidableEq

/-- `Function::name`. -/
def FunctionName.text : FunctionName → List Char
  | .freestanding name => name.1
  | .method resource name => ['[', 'm', 'e', 't', 'h', 'o', 'd', ']'] ++ (resource.1 ++ '.' :: name.1)
  | .static resource name => ['[', 's', 't', 'a', 't', 'i', 'c', ']'] ++ (resource.1 ++ '.' :: name.1)
  | .constructor resource =>
    ['[', 'c', 'o', 'n', 's', 't', 'r', 'u', 'c', 't', 'o', 'r', ']'] ++ resource.1

@[ext]
structure ExternalFunction where
  exported : Bool
  module : ModuleName
  name : FunctionName
deriving DecidableEq

namespace ExternalFunction

/-- `wasm_import_module` of the interface generator the function is printed with. -/
def wasmImportModule (f : ExternalFunction) : Option (List Char) :=
  if f.exported ∧ f.module = .root then none else some f.module.text

/-- `__wasm_import_` -/
def importStem : List Char := ['_', '_', 'w', 'a', 's', 'm', '_', 'i', 'm', 'p', 'o', 'r', 't', '_']

/-- `__wasm_export_` -/
def exportStem : List Char := ['_', '_', 'w', 'a', 's', 'm', '_', 'e', 'x', 'p', 'o', 'r', 't', '_']

/-- The name of an import in `declare_import2`. -/
def importSymbol (moduleName name : List Char) : List Char :=
  importStem ++ makeExternalSymbol moduleName name .guestImport

/-- The name of an export in `print_export_signature`. -/
def exportSymbol (exportPrefix : List Char) (moduleName : Option (List Char)) (name : List Char) : List Char :=
  exportStem ++ exportPrefix ++
    match moduleName with
    | some m => makeExternalSymbol m name .guestExport
    | none => makeExternalComponent name

def symbol (exportPrefix : List Char) (f : ExternalFunction) : List Char :=
  if f.exported then exportSymbol exportPrefix f.wasmImportModule f.name.text
  else importSymbol (f.wasmImportModule.getD []) f.name.text

/-- The character that is written between a module and a function. -/
def separator (exported : Bool) : Char := if exported then '#' else '\x00'

/-- A module, the separator and a function. -/
def fullName (f : ExternalFunction) : List Char :=
  match f.module with
  | .root => f.name.text
  | m => m.text ++ separator f.exported :: f.name.text

end ExternalFunction

/-! ## Characters of names -/

/-- The characters of names that are escaped. -/
def specials : List Char := ['\x00', '#', '+', '.', '/', ':', '@', '[', ']']

def IsNameChar (c : Char) : Prop := c.isAlphanum = true ∨ c = '-' ∨ c ∈ specials

theorem externalChar_alphanum {c : Char} (h : c.isAlphanum = true) : externalChar c = [c] :=
  if_pos (Or.inl h)

theorem externalChar_dash : externalChar '-' = ['_'] := by decide

/-- The special character that two hexadecimal digits stand for. -/
def escaped (a b : Char) : Option Char := specials.find? fun c => externalChar c = ['X', a, b]

theorem escaped_of_externalChar {c : Char} (h : c ∈ specials) :
    ∃ a b, externalChar c = ['X', a, b] ∧ escaped a b = some c ∧ a.isAlphanum ∧ b.isAlphanum := by
  have key : ∀ c ∈ specials, ∃ p : Char × Char, externalChar c = ['X', p.1, p.2] ∧
      escaped p.1 p.2 = some c ∧ p.1.isAlphanum ∧ p.2.isAlphanum := by
    intro c hc
    simp only [specials, List.mem_cons, List.not_mem_nil, or_false] at hc
    rcases hc with rfl | rfl | rfl | rfl | rfl | rfl | rfl | rfl | rfl
    · exact ⟨('0', '0'), by decide⟩
    · exact ⟨('2', '3'), by decide⟩
    · exact ⟨('2', 'B'), by decide⟩
    · exact ⟨('2', 'E'), by decide⟩
    · exact ⟨('2', 'F'), by decide⟩
    · exact ⟨('3', 'A'), by decide⟩
    · exact ⟨('4', '0'), by decide⟩
    · exact ⟨('5', 'B'), by decide⟩
    · exact ⟨('5', 'D'), by decide⟩
  obtain ⟨⟨a, b⟩, h⟩ := key c h
  exact ⟨a, b, h⟩

theorem escaped_some {a b c : Char} (h : escaped a b = some c) :
    c ∈ specials ∧ externalChar c = ['X', a, b] ∧ a.isAlphanum ∧ b.isAlphanum := by
  have hmem : c ∈ specials := List.mem_of_find?_eq_some h
  have hcode : externalChar c = ['X', a, b] := by simpa using List.find?_some h
  obtain ⟨a', b', hcode', -, ha, hb⟩ := escaped_of_externalChar hmem
  obtain ⟨rfl, rfl⟩ : a = a' ∧ b = b' := by simpa [hcode] using hcode'
  exact ⟨hmem, hcode, ha, hb⟩

/-! ## Reading escapes -/

/-- Every escape is read as the character it stands for, also one that is spelled out in
plain letters. -/
def readEscapes : List Char → List Char
  | 'X' :: a :: b :: rest =>
    match escaped a b with
    | some c => c :: readEscapes rest
    | none => 'X' :: readEscapes (a :: b :: rest)
  | c :: rest => c :: readEscapes rest
  | [] => []

theorem readEscapes_cons {c : Char} (h : c ≠ 'X') (rest : List Char) :
    readEscapes (c :: rest) = c :: readEscapes rest := by
  conv_lhs => unfold readEscapes
  split <;> simp_all

/-- Whatever is read as one character has the same code. -/
theorem makeExternalComponent_readEscapes (s : List Char) :
    makeExternalComponent (readEscapes s) = makeExternalComponent s := by
  induction s using readEscapes.induct with
  | case1 a b rest c hc ih =>
    obtain ⟨-, hcode, ha, hb⟩ := escaped_some hc
    rw [readEscapes, hc]
    simp only [makeExternalComponent, List.flatMap_cons, hcode, externalChar_alphanum ha,
      externalChar_alphanum hb, externalChar_alphanum (show ('X').isAlphanum = true by decide)] at ih ⊢
    rw [ih]
    rfl
  | case2 a b rest hc ih =>
    rw [readEscapes, hc]
    simp only [makeExternalComponent, List.flatMap_cons] at ih ⊢
    rw [ih]
  | case3 c rest hne ih =>
    rw [readEscapes]
    · simp only [makeExternalComponent, List.flatMap_cons] at ih ⊢
      rw [ih]
    · exact hne
  | case4 => rfl

theorem IsNameChar.cases {c : Char} (h : IsNameChar c) :
    c.isAlphanum = true ∧ externalChar c = [c] ∨ c = '-' ∧ externalChar c = ['_'] ∨
      c ∈ specials ∧ ∃ a b, externalChar c = ['X', a, b] ∧ escaped a b = some c := by
  rcases h with h | rfl | h
  · exact Or.inl ⟨h, externalChar_alphanum h⟩
  · exact Or.inr (Or.inl ⟨rfl, externalChar_dash⟩)
  · obtain ⟨a, b, hcode, hesc, -, -⟩ := escaped_of_externalChar h
    exact Or.inr (Or.inr ⟨h, a, b, hcode, hesc⟩)

/-- The digits of an escape are neither `X` nor an underscore. -/
theorem escaped_digits {a b c : Char} (h : escaped a b = some c) :
    (a ≠ 'X' ∧ a ≠ '_') ∧ b ≠ 'X' ∧ b ≠ '_' := by
  obtain ⟨hmem, hcode, -, -⟩ := escaped_some h
  have key : (specials.all fun c => (externalChar c).tail.all fun d => d != 'X' && d != '_') = true := by decide
  have hdigits := List.all_eq_true.mp key c hmem
  rw [hcode] at hdigits
  simpa using hdigits

/-- Two digits at the front of an encoded name are letters or digits of the name. -/
theorem makeExternalComponent_opens {s r : List Char} {a b c : Char} (hs : ∀ x ∈ s, IsNameChar x)
    (h : makeExternalComponent s = a :: b :: r) (hesc : escaped a b = some c) :
    ∃ r', s = a :: b :: r' := by
  obtain ⟨⟨hax, hau⟩, hbx, hbu⟩ := escaped_digits hesc
  cases s with
  | nil => simp [makeExternalComponent] at h
  | cons x s =>
    rw [makeExternalComponent, List.flatMap_cons] at h
    rcases (hs x (List.mem_cons_self ..)).cases with ⟨-, hx⟩ | ⟨-, hx⟩ | ⟨-, _, _, hx, -⟩
    · rw [hx, List.singleton_append, List.cons.injEq] at h
      obtain ⟨rfl, h⟩ := h
      cases s with
      | nil => simp at h
      | cons y s =>
        rw [List.flatMap_cons] at h
        rcases (hs y (by simp)).cases with ⟨-, hy⟩ | ⟨-, hy⟩ | ⟨-, _, _, hy, -⟩
        · rw [hy, List.singleton_append, List.cons.injEq] at h
          exact ⟨s, by rw [h.1]⟩
        · rw [hy, List.singleton_append, List.cons.injEq] at h
          exact absurd h.1.symm hbu
        · rw [hy, List.cons_append, List.cons.injEq] at h
          exact absurd h.1.symm hbx
    · rw [hx, List.singleton_append, List.cons.injEq] at h
      exact absurd h.1.symm hau
    · rw [hx, List.cons_append, List.cons.injEq] at h
      exact absurd h.1.symm hax

/-- An `X` that opens no escape is read as itself. -/
theorem readEscapes_X {t : List Char} (h : ∀ a b r, t = a :: b :: r → escaped a b = none) :
    readEscapes ('X' :: t) = 'X' :: readEscapes t := by
  match t, h with
  | [], _ | [_], _ => rw [readEscapes]; simp
  | a :: b :: r, h => rw [readEscapes, h a b r rfl]

/-- The dashes come back, and every escape is read. -/
def decode (t : List Char) : List Char := (readEscapes t).map fun c => if c = '_' then '-' else c

theorem decode_cons {c : Char} (t : List Char) (h : c ≠ 'X') :
    decode (c :: t) = (if c = '_' then '-' else c) :: decode t := by
  rw [decode, readEscapes_cons h, List.map_cons, decode]

/-- An `X` of a name that spells no escape out stays. -/
theorem decode_X {s : List Char} (hs : ∀ x ∈ s, IsNameChar x)
    (h : ∀ a b r, s = a :: b :: r → escaped a b = none) :
    decode (makeExternalComponent ('X' :: s)) = 'X' :: decode (makeExternalComponent s) := by
  have henc : makeExternalComponent ('X' :: s) = 'X' :: makeExternalComponent s := by
    rw [makeExternalComponent, List.flatMap_cons, externalChar_alphanum (by decide), List.singleton_append]
    rfl
  rw [henc, decode, readEscapes_X, List.map_cons]
  · rfl
  · intro a b r hr
    cases hesc : escaped a b with
    | none => rfl
    | some c =>
      obtain ⟨r', hs'⟩ := makeExternalComponent_opens hs hr hesc
      rw [h a b r' hs'] at hesc
      exact nomatch hesc

/-- What can be read back of an encoded name is the name with its escapes read. -/
theorem decode_makeExternalComponent {s : List Char} (hs : ∀ x ∈ s, IsNameChar x) :
    decode (makeExternalComponent s) = readEscapes s := by
  induction s using readEscapes.induct with
  | case1 a b rest c hc ih =>
    obtain ⟨hmem, hcode, ha, hb⟩ := escaped_some hc
    have hrest : ∀ x ∈ rest, IsNameChar x := fun x hx => hs x (by simp [hx])
    have hcu : c ≠ '_' := by rintro rfl; exact absurd hmem (by decide)
    have henc : makeExternalComponent ('X' :: a :: b :: rest) = 'X' :: a :: b :: makeExternalComponent rest := by
      simp only [makeExternalComponent, List.flatMap_cons, externalChar_alphanum ha, externalChar_alphanum hb,
        externalChar_alphanum (show ('X').isAlphanum = true by decide), List.singleton_append]
    rw [henc, decode, readEscapes, hc, List.map_cons, if_neg hcu, readEscapes, hc]
    exact congrArg _ (ih hrest)
  | case2 a b rest hc ih =>
    have hrest : ∀ x ∈ a :: b :: rest, IsNameChar x := fun x hx => hs x (List.mem_cons_of_mem _ hx)
    rw [readEscapes, hc, ← ih hrest]
    refine decode_X hrest fun a' b' r hr => ?_
    obtain ⟨rfl, rfl, -⟩ : a = a' ∧ b = b' ∧ rest = r := by simpa using hr
    exact hc
  | case3 c rest hne ih =>
    have hrest : ∀ x ∈ rest, IsNameChar x := fun x hx => hs x (List.mem_cons_of_mem _ hx)
    have hread : readEscapes (c :: rest) = c :: readEscapes rest := by
      rw [readEscapes]
      exact hne
    rw [hread, ← ih hrest]
    by_cases hX : c = 'X'
    · subst hX
      exact decode_X hrest fun a b r hr => (hne a b r rfl hr).elim
    · rcases (hs c (List.mem_cons_self ..)).cases with ⟨halnum, hcode⟩ | ⟨rfl, hcode⟩ | ⟨hmem, a, b, hcode, hesc⟩
      · have hcu : c ≠ '_' := by rintro rfl; exact absurd halnum (by decide)
        rw [makeExternalComponent, List.flatMap_cons, hcode, List.singleton_append, decode_cons _ hX, if_neg hcu]
        rfl
      · rfl
      · have hcu : c ≠ '_' := by rintro rfl; exact absurd hmem (by decide)
        rw [makeExternalComponent, List.flatMap_cons, hcode, decode]
        simp only [List.cons_append, List.nil_append]
        rw [readEscapes, hesc, List.map_cons, if_neg hcu]
        rfl
  | case4 => rfl

/-- Two names are encoded alike exactly if they read alike. -/
theorem makeExternalComponent_eq_iff {s t : List Char} (hs : ∀ x ∈ s, IsNameChar x) (ht : ∀ x ∈ t, IsNameChar x) :
    makeExternalComponent s = makeExternalComponent t ↔ readEscapes s = readEscapes t := by
  constructor
  · intro h
    rw [← decode_makeExternalComponent hs, h, decode_makeExternalComponent ht]
  · intro h
    rw [← makeExternalComponent_readEscapes s, h, makeExternalComponent_readEscapes]

/-- An escape stands in the name in plain letters. -/
def SpellsEscape (s : List Char) : Prop := ∃ c ∈ specials, externalChar c <:+: s

theorem readEscapes_eq_self {s : List Char} (h : ¬SpellsEscape s) : readEscapes s = s := by
  have tail : ∀ {x : Char} {s : List Char}, ¬SpellsEscape (x :: s) → ¬SpellsEscape s :=
    fun h ⟨c, hc, hin⟩ => h ⟨c, hc, hin.trans (List.suffix_cons ..).isInfix⟩
  induction s using readEscapes.induct with
  | case1 a b rest c hc ih =>
    obtain ⟨hmem, hcode, -, -⟩ := escaped_some hc
    exact absurd ⟨c, hmem, hcode ▸ ⟨[], rest, rfl⟩⟩ h
  | case2 a b rest hc ih => rw [readEscapes, hc, ih (tail h)]
  | case3 c rest hne ih =>
    rw [readEscapes, ih (tail h)]
    exact hne
  | case4 => rfl

/-! ## Full names -/

theorem Label.char {l : Label} {c : Char} (h : c ∈ l.1) : c.isAlphanum = true ∨ c = '-' := by
  obtain ⟨l, hl⟩ := l
  rw [isLabel, Bool.and_eq_true, List.all_eq_true] at hl
  change c ∈ l at h
  rw [show l = _ from (List.intercalate_splitOn '-').symm] at h
  rcases List.mem_of_mem_intercalate h with rfl | ⟨w, hw, hc⟩
  · exact Or.inr rfl
  · have hword := hl.1 w hw
    rw [isWord, Bool.and_eq_true, Bool.or_eq_true, List.all_eq_true, List.all_eq_true] at hword
    refine Or.inl ?_
    rcases hword.2 with hlow | hup
    · have hclass := hlow c hc
      simp only [Bool.or_eq_true] at hclass
      simp only [Char.isAlphanum, Char.isAlpha.eq_def, Bool.or_eq_true]
      tauto
    · have hclass := hup c hc
      simp only [Bool.or_eq_true] at hclass
      simp only [Char.isAlphanum, Char.isAlpha.eq_def, Bool.or_eq_true]
      tauto

theorem Label.notMem (l : Label) {c : Char} (h : c.isAlphanum = false) (h' : c ≠ '-') : c ∉ l.1 := by
  intro hc
  rcases Label.char hc with hclass | rfl
  · rw [h] at hclass
    exact nomatch hclass
  · exact h' rfl

/-- The characters of a module's or a function's own name. -/
def IsTextChar (c : Char) : Prop := c.isAlphanum = true ∨ c = '-' ∨ c ∈ ['+', '.', '/', ':', '@', '[', ']']

theorem IsTextChar.isNameChar {c : Char} (h : IsTextChar c) : IsNameChar c :=
  h.imp id (Or.imp id fun hmem => List.mem_cons_of_mem _ (List.mem_cons_of_mem _ hmem))

theorem Label.isTextChar {l : Label} {c : Char} (h : c ∈ l.1) : IsTextChar c :=
  (Label.char h).elim Or.inl fun hdash => Or.inr (Or.inl hdash)

theorem Version.isTextChar {v : Version} {c : Char} (h : c ∈ v.1) : IsTextChar c := by
  obtain ⟨v, hv⟩ := v
  rw [isVersion, Bool.and_eq_true, List.all_eq_true] at hv
  have hc := hv.2 c h
  simp only [Bool.or_eq_true, decide_eq_true_eq] at hc
  rcases hc with ((hc | hc) | hc) | hc
  · exact Or.inl hc
  · exact Or.inr (Or.inr (by simp [hc]))
  · exact Or.inr (Or.inl hc)
  · exact Or.inr (Or.inr (by simp [hc]))

theorem ModuleName.isTextChar {m : ModuleName} (hm : m ≠ .root) {c : Char} (h : c ∈ m.text) : IsTextChar c := by
  cases m with
  | root => exact absurd rfl hm
  | named name => exact Label.isTextChar h
  | interface ns package iface version =>
    have hsign : ∀ d ∈ [':', '/', '@'], IsTextChar d := fun d hd => Or.inr (Or.inr (by simp at hd ⊢; tauto))
    simp only [text, List.mem_append, List.mem_cons] at h
    rcases h with h | rfl | h | rfl | h | h
    · exact Label.isTextChar h
    · exact hsign _ (by simp)
    · exact Label.isTextChar h
    · exact hsign _ (by simp)
    · exact Label.isTextChar h
    · cases version with
      | none => exact absurd h List.not_mem_nil
      | some v =>
        rcases List.mem_cons.mp h with rfl | h
        · exact hsign _ (by simp)
        · exact Version.isTextChar h

theorem FunctionName.isTextChar {n : FunctionName} {c : Char} (h : c ∈ n.text) : IsTextChar c := by
  have hopen : ∀ s : List Char, (s.all fun d => d.isAlphanum || d == '[' || d == ']') = true → c ∈ s →
      IsTextChar c := by
    intro s hs hc
    have hchar := List.all_eq_true.mp hs c hc
    simp only [Bool.or_eq_true, beq_iff_eq, or_assoc] at hchar
    refine hchar.imp id fun hmem => Or.inr ?_
    simp
    tauto
  cases n with
  | freestanding name => exact Label.isTextChar h
  | constructor resource =>
    rcases List.mem_append.mp h with h | h
    · exact hopen _ (by decide) h
    · exact Label.isTextChar h
  | method resource name | static resource name =>
    rcases List.mem_append.mp h with h | h
    · exact hopen _ (by decide) h
    · rcases List.mem_append.mp h with h | h
      · exact Label.isTextChar h
      · rcases List.mem_cons.mp h with rfl | h
        · exact Or.inr (Or.inr (by simp))
        · exact Label.isTextChar h

theorem ifaceVersion_injective {l l' : Label} {v v' : Option Version}
    (h : l.1 ++ versionSuffix v = l'.1 ++ versionSuffix v') : l = l' ∧ v = v' := by
  have hat : ∀ l : Label, '@' ∉ l.1 := fun l => l.notMem (by decide) (by decide)
  cases v with
  | none =>
    rw [versionSuffix, List.append_nil] at h
    cases v' with
    | none =>
      rw [versionSuffix, List.append_nil] at h
      exact ⟨Subtype.ext h, rfl⟩
    | some v' => exact absurd (by rw [h, versionSuffix]; simp) (hat l)
  | some v =>
    cases v' with
    | none =>
      rw [versionSuffix, versionSuffix, List.append_nil] at h
      exact absurd (by rw [← h]; simp) (hat l')
    | some v' =>
      obtain ⟨hl, hv⟩ := (List.append_cons_inj_of_notMem_left (hat l) (hat l')).mp h
      exact ⟨Subtype.ext hl, congrArg some (Subtype.ext hv)⟩

theorem ModuleName.text_injective {m m' : ModuleName} (hm : m ≠ .root) (hm' : m' ≠ .root) (h : m.text = m'.text) :
    m = m' := by
  have hcolon : ∀ l : Label, ':' ∉ l.1 := fun l => l.notMem (by decide) (by decide)
  have hslash : ∀ l : Label, '/' ∉ l.1 := fun l => l.notMem (by decide) (by decide)
  cases m with
  | root => exact absurd rfl hm
  | named name =>
    cases m' with
    | root => exact absurd rfl hm'
    | named name' => exact congrArg _ (Subtype.ext h)
    | interface ns' package' iface' version' =>
      refine absurd ?_ (hcolon name)
      change name.1 = _ at h
      rw [h]
      simp [text]
  | interface ns package iface version =>
    cases m' with
    | root => exact absurd rfl hm'
    | named name' =>
      refine absurd ?_ (hcolon name')
      change _ = name'.1 at h
      rw [← h]
      simp [text]
    | interface ns' package' iface' version' =>
      obtain ⟨hns, hrest⟩ := (List.append_cons_inj_of_notMem_left (hcolon ns) (hcolon ns')).mp h
      obtain ⟨hpackage, hiface⟩ :=
        (List.append_cons_inj_of_notMem_left (hslash package) (hslash package')).mp hrest
      obtain ⟨hiface, hversion⟩ := ifaceVersion_injective hiface
      rw [Subtype.ext hns, Subtype.ext hpackage, hiface, hversion]

theorem member_injective {r r' l l' : Label} (h : r.1 ++ '.' :: l.1 = r'.1 ++ '.' :: l'.1) : r = r' ∧ l = l' := by
  have hdot : ∀ l : Label, '.' ∉ l.1 := fun l => l.notMem (by decide) (by decide)
  obtain ⟨hr, hl⟩ := (List.append_cons_inj_of_notMem_left (hdot r) (hdot r')).mp h
  exact ⟨Subtype.ext hr, Subtype.ext hl⟩

theorem FunctionName.bracket_mem {n : FunctionName} (h : ∀ l, n ≠ .freestanding l) : '[' ∈ n.text := by
  cases n with
  | freestanding name => exact absurd rfl (h name)
  | method r l => exact List.mem_append_left _ (by decide)
  | static r l => exact List.mem_append_left _ (by decide)
  | constructor r => exact List.mem_append_left _ (by decide)

theorem FunctionName.text_freestanding {l : Label} {n : FunctionName} (h : l.1 = n.text) : n = .freestanding l := by
  by_cases hn : ∃ l', n = .freestanding l'
  · obtain ⟨l', rfl⟩ := hn
    rw [Subtype.ext (show l'.1 = l.1 from h.symm)]
  · have hmem : '[' ∈ n.text := bracket_mem fun l' hl => hn ⟨l', hl⟩
    rw [← h] at hmem
    exact absurd hmem (l.notMem (by decide) (by decide))

theorem FunctionName.text_injective {n n' : FunctionName} (h : n.text = n'.text) : n = n' := by
  cases n with
  | freestanding name => exact (text_freestanding (l := name) h).symm
  | method resource name =>
    cases n' with
    | freestanding name' => exact text_freestanding (l := name') h.symm
    | method r l =>
      simp only [text, List.append_right_inj] at h
      obtain ⟨rfl, rfl⟩ := member_injective h
      rfl
    | static r l => simp [text] at h
    | constructor r => simp [text] at h
  | static resource name =>
    cases n' with
    | freestanding name' => exact text_freestanding (l := name') h.symm
    | static r l =>
      simp only [text, List.append_right_inj] at h
      obtain ⟨rfl, rfl⟩ := member_injective h
      rfl
    | method r l => simp [text] at h
    | constructor r => simp [text] at h
  | constructor resource =>
    cases n' with
    | freestanding name' => exact text_freestanding (l := name') h.symm
    | constructor r =>
      simp only [text, List.append_right_inj] at h
      rw [Subtype.ext h]
    | method r l => simp [text] at h
    | static r l => simp [text] at h

namespace ExternalFunction

/-- The separator is in neither of the names. -/
theorem separator_not_isTextChar (exported : Bool) : ¬IsTextChar (separator exported) := by
  cases exported <;> simp [separator, IsTextChar]

theorem fullName_of_root {f : ExternalFunction} (h : f.module = .root) : f.fullName = f.name.text := by
  rw [fullName, h]

theorem fullName_of_ne_root {f : ExternalFunction} (h : f.module ≠ .root) :
    f.fullName = f.module.text ++ separator f.exported :: f.name.text := by
  obtain ⟨exported, m, n⟩ := f
  cases m with
  | root => exact absurd rfl h
  | _ => rfl

theorem isNameChar {f : ExternalFunction} {c : Char} (h : c ∈ f.fullName) : IsNameChar c := by
  by_cases hm : f.module = .root
  · rw [fullName_of_root hm] at h
    exact (FunctionName.isTextChar h).isNameChar
  · rw [fullName_of_ne_root hm] at h
    rcases List.mem_append.mp h with h | h
    · exact (ModuleName.isTextChar hm h).isNameChar
    · rcases List.mem_cons.mp h with rfl | h
      · exact Or.inr (Or.inr (by cases f.exported <;> decide))
      · exact (FunctionName.isTextChar h).isNameChar

/-- Module and function can be read off the full name. -/
theorem fullName_injective {f g : ExternalFunction} (hdir : f.exported = g.exported) (h : f.fullName = g.fullName) :
    f = g := by
  have hname : ∀ n : FunctionName, separator g.exported ∉ n.text := fun n hn =>
    separator_not_isTextChar _ (FunctionName.isTextChar hn)
  have hmodule : ∀ m : ModuleName, m ≠ .root → separator g.exported ∉ m.text := fun m hm hn =>
    separator_not_isTextChar _ (ModuleName.isTextChar hm hn)
  by_cases hm : f.module = .root
  · rw [fullName_of_root hm] at h
    by_cases hm' : g.module = .root
    · rw [fullName_of_root hm'] at h
      exact ExternalFunction.ext hdir (hm.trans hm'.symm) (FunctionName.text_injective h)
    · rw [fullName_of_ne_root hm'] at h
      exact absurd (by rw [h]; simp) (hname f.name)
  · rw [fullName_of_ne_root hm, hdir] at h
    by_cases hm' : g.module = .root
    · rw [fullName_of_root hm'] at h
      exact absurd (by rw [← h]; simp) (hname g.name)
    · rw [fullName_of_ne_root hm'] at h
      obtain ⟨htext, hn⟩ := (List.append_cons_inj_of_notMem_left (hmodule _ hm) (hmodule _ hm')).mp h
      exact ExternalFunction.ext hdir (ModuleName.text_injective hm hm' htext) (FunctionName.text_injective hn)

/-- The functions of no interface are taken for those of the world. -/
theorem text_ne_root {m : ModuleName} (h : m ≠ .root) : ¬(m.text = [] ∨ m.text = ['$', 'r', 'o', 'o', 't']) := by
  rintro (hnil | hroot)
  · cases m with
    | root => exact h rfl
    | named name =>
      obtain ⟨name, hlabel⟩ := name
      obtain rfl : name = [] := hnil
      exact absurd hlabel (by decide)
    | interface ns package iface version => simp [ModuleName.text] at hnil
  · have hdollar : IsTextChar '$' := ModuleName.isTextChar h (by rw [hroot]; decide)
    exact absurd hdollar (by simp [IsTextChar])

/-- A symbol is the prefix of its direction and the encoded full name. -/
theorem symbol_eq (exportPrefix : List Char) (f : ExternalFunction) :
    f.symbol exportPrefix = (if f.exported then exportStem ++ exportPrefix else importStem) ++
      makeExternalComponent f.fullName := by
  by_cases hm : f.module = .root
  · rw [fullName_of_root hm]
    cases hdir : f.exported with
    | true => simp [symbol, exportSymbol, wasmImportModule, hdir, hm]
    | false => simp [symbol, importSymbol, wasmImportModule, hdir, hm, makeExternalSymbol, ModuleName.text]
  · rw [fullName_of_ne_root hm, makeExternalComponent, List.flatMap_append, List.flatMap_cons]
    cases hdir : f.exported with
    | true =>
      simp only [symbol, exportSymbol, wasmImportModule, hdir, hm, and_false, if_true, if_false,
        makeExternalSymbol, if_neg (text_ne_root hm), List.append_assoc]
      rfl
    | false =>
      simp only [symbol, importSymbol, wasmImportModule, hdir, hm, and_false, if_false, Option.getD_some,
        makeExternalSymbol, if_neg (text_ne_root hm), Bool.false_eq_true, List.append_assoc]
      rfl

/-- Imports and exports do not share a symbol; two of one direction do if their full names read alike. -/
theorem symbol_eq_iff (exportPrefix : List Char) (f g : ExternalFunction) :
    f.symbol exportPrefix = g.symbol exportPrefix ↔
      f.exported = g.exported ∧ readEscapes f.fullName = readEscapes g.fullName := by
  rw [symbol_eq, symbol_eq, ← makeExternalComponent_eq_iff (fun _ => isNameChar) (fun _ => isNameChar)]
  cases hf : f.exported <;> cases hg : g.exported
  · simp
  · simp [importStem, exportStem]
  · simp [importStem, exportStem]
  · simp

end ExternalFunction

/-! ## Distinct symbols -/

open ExternalFunction

/-- The functions a world imports and exports have different symbols exactly if no two of one
direction have full names that read alike once every escape, spelled out or not, is read as its
character. In particular they have when no name spells an escape out. -/
theorem external_symbols_injective_iff (exportPrefix : List Char) (fs : List ExternalFunction) :
    ((∀ f ∈ fs, ∀ g ∈ fs, f ≠ g → f.symbol exportPrefix ≠ g.symbol exportPrefix) ↔
      ∀ f ∈ fs, ∀ g ∈ fs, f ≠ g → f.exported = g.exported →
        readEscapes f.fullName ≠ readEscapes g.fullName) ∧
    ((∀ f ∈ fs, ¬SpellsEscape f.fullName) →
      ∀ f ∈ fs, ∀ g ∈ fs, f ≠ g → f.symbol exportPrefix ≠ g.symbol exportPrefix) := by
  refine ⟨forall₂_congr fun f _ => forall₂_congr fun g _ => ?_, fun hplain f hf g hg hne heq => ?_⟩
  · rw [Ne, Ne, Ne, symbol_eq_iff, not_and]
  · obtain ⟨hdir, hread⟩ := (symbol_eq_iff exportPrefix f g).mp heq
    rw [readEscapes_eq_self (hplain f hf), readEscapes_eq_self (hplain g hg)] at hread
    exact hne (fullName_injective hdir hread)

/-- `AX00B`, imported by the world itself. -/
def spelledImport : ExternalFunction :=
  ⟨false, .root, .freestanding ⟨['A', 'X', '0', '0', 'B'], by decide⟩⟩

/-- `B` of the inline interface `A`. -/
def joinedImport : ExternalFunction :=
  ⟨false, .named ⟨['A'], by decide⟩, .freestanding ⟨['B'], by decide⟩⟩

/-- Both imports are `__wasm_import_AX00B`. -/
theorem spelled_import_clashes :
    ¬∀ f ∈ [spelledImport, joinedImport], ∀ g ∈ [spelledImport, joinedImport], f ≠ g → f.symbol [] ≠ g.symbol [] := by
  intro h
  exact h spelledImport (by simp) joinedImport (by simp) (by decide) (by decide)

end WitBindgen.Cpp
