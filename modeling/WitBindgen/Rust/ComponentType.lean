import WitBindgen.Core.Source
import Mathlib.Data.List.Basic

/-!
# The embedded component type

`emit_custom_section` prints the encoded component type as a byte string of Rust. Bytes that
are neither letters, digits nor punctuation are escaped, and a line is broken after about
eighty columns with a backslash, after which Rust skips blanks. What Rust reads is what was
encoded: no byte is written as a blank, so none is skipped, and no escape reaches into what
comes after it.
-/

namespace WitBindgen.Rust

open WitBindgen.Core

/-! ## Printing -/

/-- `u8::is_ascii_alphanumeric`. -/
def isAsciiAlphanumeric (b : UInt8) : Bool :=
  (0x30 ≤ b.toNat && b.toNat ≤ 0x39) || (0x41 ≤ b.toNat && b.toNat ≤ 0x5A) ||
    (0x61 ≤ b.toNat && b.toNat ≤ 0x7A)

/-- `u8::is_ascii_punctuation`. -/
def isAsciiPunctuation (b : UInt8) : Bool :=
  (0x21 ≤ b.toNat && b.toNat ≤ 0x2F) || (0x3A ≤ b.toNat && b.toNat ≤ 0x40) ||
    (0x5B ≤ b.toNat && b.toNat ≤ 0x60) || (0x7B ≤ b.toNat && b.toNat ≤ 0x7E)

/-- The text of a byte, and what it counts for in `line_length`. -/
def escapeByte (b : UInt8) : List Char × Nat :=
  if b = 0x5C then (['\\', '\\'], 2)
  else if b = 0x22 then (['\\', '"'], 2)
  else if isAsciiAlphanumeric b || isAsciiPunctuation b then ([Char.ofNat b.toNat], 1)
  else if b = 0 then (['\\', '0'], 2)
  else (['\\', 'x', Nat.digitChar (b.toNat / 16), Nat.digitChar (b.toNat % 16)], 4)

/-- One round of the loop over the bytes: `s` and `line_length`. -/
def emitByte (st : List Char × Nat) (b : UInt8) : List Char × Nat :=
  let st := if 80 ≤ st.2 then (st.1 ++ ['\\', '\n'], 0) else st
  (st.1 ++ (escapeByte b).1, st.2 + (escapeByte b).2)

/-- The static of the component type, from its declaration on. -/
def staticHead (length : Nat) : List Char :=
  "pub static __WIT_BINDGEN_COMPONENT_TYPE: [u8; ".toList ++ Nat.toDigits 10 length ++
    "] = *b\"\\".toList

/-- The attributes of the static. -/
def emitAttributes (src : Source) (format : Bool)
    (version pkg worldName sectionSuffix optsSuffix : List Char) : Source :=
  let src := if format then src.pushStr "#[rustfmt::skip]\n".toList else src
  let src := src.pushStr "\n#[cfg(target_arch = \"wasm32\")]\n".toList
  let src := src.pushStr ("#[unsafe(link_section = \"component-type:wit-bindgen:".toList ++ version ++
    [':'] ++ pkg ++ [':'] ++ worldName ++ [':'] ++ sectionSuffix ++ optsSuffix ++ "\")]\n".toList)
  let src := src.pushStr "#[doc(hidden)]\n".toList
  src.pushStr "#[allow(clippy::octal_escapes)]\n".toList

/-- The bytes go into the text as they are, past the rules of `push_str`. -/
def emitStatic (src : Source) (componentType : List UInt8) : Source :=
  let src := src.pushStr (staticHead componentType.length ++ ['\n'])
  let oldIndent := src.indent
  let src := src.setIndent 0
  let src := { src with s := (componentType.foldl emitByte (src.s, 0)).1 }
  let src := src.pushStr "\";\n".toList
  src.setIndent oldIndent

/-- `write!` pushes the pieces between the arguments one by one. -/
def emitFunction (src : Source) (funcName runtimePath : List Char) : Source :=
  let src := src.pushStr ("\n                #[inline(never)]\n                #[doc(hidden)]\n" ++
    "                pub fn ").toList
  let src := src.pushStr funcName
  let src := src.pushStr "() \x7b\n                    ".toList
  let src := src.pushStr runtimePath
  src.pushStr "::maybe_link_cabi_realloc();\n                \x7d\n            \n".toList

/-- `emit_custom_section`. -/
def emitCustomSection (src : Source) (format : Bool)
    (version pkg worldName sectionSuffix optsSuffix : List Char) (componentType : List UInt8)
    (funcName : Option (List Char)) (runtimePath : List Char) : Source :=
  let src := emitAttributes src format version pkg worldName sectionSuffix optsSuffix
  let src := emitStatic src componentType
  match funcName with
  | none => src
  | some funcName => emitFunction src funcName runtimePath

/-! ## Reading

The rules of Rust for byte strings, from behind the opening quote. The file is read a
character at a time; what may come next depends on what came before.
-/

inductive LexMode where
  | plain
  /-- Behind a line continuation. -/
  | skipping
  | escape
  | hexHigh
  | hexLow (high : Nat)
deriving DecidableEq

def isSkipped (c : Char) : Bool := c == ' ' || c == '\t' || c == '\n' || c == '\r'

def hexValue (c : Char) : Option Nat :=
  if '0' ≤ c ∧ c ≤ '9' then some (c.toNat - 0x30)
  else if 'a' ≤ c ∧ c ≤ 'f' then some (c.toNat - 0x61 + 10)
  else if 'A' ≤ c ∧ c ≤ 'F' then some (c.toNat - 0x41 + 10)
  else none

def simpleEscape (c : Char) : Option UInt8 :=
  if c = 'n' then some 0x0A
  else if c = 'r' then some 0x0D
  else if c = 't' then some 0x09
  else if c = '\\' then some 0x5C
  else if c = '0' then some 0
  else if c.toNat = 0x27 then some 0x27
  else if c = '"' then some 0x22
  else none

/-- The byte in front of what is read behind it. -/
def withByte (b : UInt8) (read : Option (List UInt8 × List Char)) :
    Option (List UInt8 × List Char) :=
  read.map fun p => (b :: p.1, p.2)

/-- The bytes, and what follows the closing quote; `none` where Rust refuses the text. -/
def readByteString : LexMode → List Char → Option (List UInt8 × List Char)
  | _, [] => none
  | .escape, c :: cs =>
    if c = '\n' then readByteString .skipping cs
    else if c = 'x' then readByteString .hexHigh cs
    else
      match simpleEscape c with
      | some b => withByte b (readByteString .plain cs)
      | none => none
  | .hexHigh, c :: cs =>
    match hexValue c with
    | some high => readByteString (.hexLow high) cs
    | none => none
  | .hexLow high, c :: cs =>
    match hexValue c with
    | some low => withByte (UInt8.ofNat (16 * high + low)) (readByteString .plain cs)
    | none => none
  | mode, c :: cs =>
    if mode = .skipping ∧ isSkipped c then readByteString .skipping cs
    else if c = '"' then some ([], cs)
    else if c = '\\' then readByteString .escape cs
    -- a carriage return of its own, or no ASCII
    else if c = '\r' ∨ 0x80 ≤ c.toNat then none
    else withByte (UInt8.ofNat c.toNat) (readByteString .plain cs)

/-- The digits of a number up to a closing bracket. -/
def readLength (n : Nat) : List Char → Option (Nat × List Char)
  | [] => none
  | c :: cs =>
    if c = ']' then some (n, cs)
    else if c.isDigit then readLength (10 * n + (c.toNat - '0'.toNat)) cs
    else none

def stripText (text s : List Char) : Option (List Char) :=
  if text.isPrefixOf s then some (s.drop text.length) else none

/-- The declared length and the bytes of the static, and what follows the literal. -/
def readStatic (s : List Char) : Option (Nat × List UInt8 × List Char) := do
  let s ← stripText "pub static __WIT_BINDGEN_COMPONENT_TYPE: [u8; ".toList s
  let (length, s) ← readLength 0 s
  let s ← stripText " = *b\"".toList s
  let (bytes, s) ← readByteString .plain s
  pure (length, bytes, s)

/-! ## What is printed is read back -/

section
variable {b : UInt8} {mode : LexMode} {rest : List Char}

/-- What a class of bytes has in common can be checked byte by byte. -/
theorem forall_byte {P : UInt8 → Prop} (h : ∀ n < 256, P (UInt8.ofNat n)) (b : UInt8) : P b := by
  have hb := h b.toNat b.toNat_lt
  rwa [UInt8.ofNat_toNat] at hb

/-- A byte that stands for itself is neither a blank nor a sign with a meaning. -/
theorem printed_not_special : ∀ b : UInt8, (isAsciiAlphanumeric b || isAsciiPunctuation b) = true ∧
    b ≠ 0x5C ∧ b ≠ 0x22 → isSkipped (Char.ofNat b.toNat) = false ∧
      Char.ofNat b.toNat ≠ '"' ∧ Char.ofNat b.toNat ≠ '\\' ∧ Char.ofNat b.toNat ≠ '\r' :=
  forall_byte (by decide +kernel)

theorem printed_ascii : ∀ b : UInt8, (isAsciiAlphanumeric b || isAsciiPunctuation b) = true →
    (Char.ofNat b.toNat).toNat < 0x80 ∧ UInt8.ofNat (Char.ofNat b.toNat).toNat = b :=
  forall_byte (by decide +kernel)

theorem hexValue_digitChar : ∀ n < 16, hexValue (Nat.digitChar n) = some n := by
  decide

/-- A backslash begins an escape, also behind a line continuation. -/
theorem read_backslash (hmode : mode = .plain ∨ mode = .skipping) :
    readByteString mode ('\\' :: rest) = readByteString .escape rest := by
  rcases hmode with rfl | rfl
  · rfl
  · rfl

/-- No byte's text depends on what it comes after. -/
theorem read_escapeByte (hmode : mode = .plain ∨ mode = .skipping) (b : UInt8)
    (rest : List Char) : readByteString mode ((escapeByte b).1 ++ rest) =
      withByte b (readByteString .plain rest) := by
  unfold escapeByte
  split
  · next hb =>
      subst hb
      exact read_backslash hmode
  · next hbackslash =>
      split
      · next hb =>
          subst hb
          exact read_backslash hmode
      · next hquote =>
          split
          · next hprinted =>
              obtain ⟨hskip, hq, hs, hr⟩ := printed_not_special b ⟨hprinted, hbackslash, hquote⟩
              obtain ⟨hascii, hbyte⟩ := printed_ascii b hprinted
              have hbad : ¬ (Char.ofNat b.toNat = '\r' ∨ 0x80 ≤ (Char.ofNat b.toNat).toNat) := by
                rintro (h | h)
                · exact hr h
                · exact absurd hascii (Nat.not_lt.mpr h)
              have hread : readByteString mode (Char.ofNat b.toNat :: rest) =
                  withByte (UInt8.ofNat (Char.ofNat b.toNat).toNat) (readByteString .plain rest) := by
                rcases hmode with rfl | rfl <;>
                  simp only [readByteString, hskip, and_false, Bool.false_eq_true, if_false, if_neg hq,
                    if_neg hs, if_neg hbad]
              rw [hbyte] at hread
              exact hread
          · split
            · next hb =>
                subst hb
                exact read_backslash hmode
            · have hlt : b.toNat < 16 * 16 := b.toNat_lt
              have hhigh : hexValue (Nat.digitChar (b.toNat / 16)) = some (b.toNat / 16) :=
                hexValue_digitChar _ (Nat.div_lt_of_lt_mul hlt)
              have hlow : hexValue (Nat.digitChar (b.toNat % 16)) = some (b.toNat % 16) :=
                hexValue_digitChar _ (Nat.mod_lt _ (by decide))
              have hbyte : UInt8.ofNat (16 * (b.toNat / 16) + b.toNat % 16) = b := by
                rw [Nat.div_add_mod, UInt8.ofNat_toNat]
              show readByteString mode ('\\' :: 'x' :: _ :: _ :: rest) = _
              rw [read_backslash hmode]
              show readByteString .hexHigh (_ :: _ :: rest) = _
              simp only [readByteString, hhigh, hlow, hbyte]

/-- One round of the loop: a line continuation is skipped, the byte is read. -/
theorem emitByte_read (st : List Char × Nat) (b : UInt8) : ∃ text : List Char,
    (emitByte st b).1 = st.1 ++ text ∧ ∀ mode, mode = .plain ∨ mode = .skipping → ∀ rest,
      readByteString mode (text ++ rest) = withByte b (readByteString .plain rest) := by
  unfold emitByte
  dsimp only
  split
  · refine ⟨['\\', '\n'] ++ (escapeByte b).1, by simp, fun mode hmode rest => ?_⟩
    have hcontinued : readByteString mode (['\\', '\n'] ++ (escapeByte b).1 ++ rest) =
        readByteString .skipping ((escapeByte b).1 ++ rest) := read_backslash hmode
    rw [hcontinued]
    exact read_escapeByte (Or.inr rfl) b rest
  · exact ⟨(escapeByte b).1, rfl, fun mode hmode rest => read_escapeByte hmode b rest⟩

/-- The whole loop, up to the closing quote. -/
theorem emitBytes_read (bytes : List UInt8) (st : List Char × Nat) : ∃ text : List Char,
    (bytes.foldl emitByte st).1 = st.1 ++ text ∧ ∀ mode, mode = .plain ∨ mode = .skipping →
      ∀ rest, readByteString mode (text ++ '"' :: rest) = some (bytes, rest) := by
  induction bytes generalizing st with
  | nil =>
    refine ⟨[], by simp, fun mode hmode rest => ?_⟩
    rcases hmode with rfl | rfl
    · rfl
    · rfl
  | cons b bytes ih =>
    obtain ⟨text, htext, hread⟩ := emitByte_read st b
    obtain ⟨text', htext', hread'⟩ := ih (emitByte st b)
    refine ⟨text ++ text', ?_, fun mode hmode rest => ?_⟩
    · rw [List.foldl_cons, htext', htext, List.append_assoc]
    · rw [List.append_assoc, hread mode hmode, hread' .plain (Or.inl rfl)]
      rfl

end

theorem readLength_digits (ds rest : List Char) (hds : ∀ c ∈ ds, c.isDigit) (n : Nat) :
    readLength n (ds ++ ']' :: rest) = some (Nat.ofDigitChars 10 ds n, rest) := by
  induction ds generalizing n with
  | nil =>
    rw [Nat.ofDigitChars_nil]
    rfl
  | cons c cs ih =>
    have hdigit := hds c (List.mem_cons_self ..)
    have hbracket : c ≠ ']' := by
      rintro rfl
      exact absurd hdigit (by decide)
    rw [List.cons_append, readLength, if_neg hbracket, if_pos hdigit,
      ih (fun d hd => hds d (List.mem_cons_of_mem _ hd)), Nat.ofDigitChars_cons]

theorem stripText_append (text s : List Char) : stripText text (text ++ s) = some s := by
  unfold stripText
  rw [if_pos (List.isPrefixOf_iff_prefix.mpr (List.prefix_append ..)), List.drop_left]

/-- The static is read from its head, the text of the bytes and the closing quote. -/
theorem readStatic_eq (bytes : List UInt8) {text rest : List Char}
    (hread : readByteString .skipping (text ++ '"' :: rest) = some (bytes, rest)) :
    readStatic (staticHead bytes.length ++ '\n' :: (text ++ '"' :: rest)) =
      some (bytes.length, bytes, rest) := by
  have hdigits : ∀ c ∈ Nat.toDigits 10 bytes.length, c.isDigit := fun c hc =>
    Nat.isDigit_of_mem_toDigits (by omega) (by omega) hc
  have hopen : "] = *b\"\\".toList = ']' :: (" = *b\"".toList ++ ['\\']) := by decide +kernel
  unfold readStatic staticHead
  rw [hopen]
  simp only [List.append_assoc, List.cons_append]
  rw [stripText_append]
  simp only [Option.bind_eq_bind, Option.bind_some]
  rw [readLength_digits _ _ hdigits, Nat.ofDigitChars_ten_toDigits]
  simp only [Option.bind_some]
  rw [stripText_append]
  simp only [Option.bind_some, List.nil_append]
  rw [read_backslash (Or.inl rfl)]
  show (readByteString .skipping (text ++ '"' :: rest)).bind _ = _
  rw [hread]
  rfl

theorem push_allow (src : Source) : src.pushStr "#[allow(clippy::octal_escapes)]\n".toList =
    src.endLine "#[allow(clippy::octal_escapes)]".toList := by
  have hline : "#[allow(clippy::octal_escapes)]\n".toList =
      "#[allow(clippy::octal_escapes)]".toList ++ ['\n'] := by decide +kernel
  have hfirst : "#[allow(clippy::octal_escapes)]".toList.head? = some '#' := by decide +kernel
  have hlast : "#[allow(clippy::octal_escapes)]".toList.getLast? = some ']' := by decide +kernel
  rw [hline]
  exact Source.pushStr_line (by decide +kernel) hfirst hlast (by decide) (by decide)

theorem push_staticHead (src : Source) (length : Nat) :
    src.pushStr (staticHead length ++ ['\n']) = src.endLine (staticHead length) := by
  have hopen : "] = *b\"\\".toList = "] = *b\"".toList ++ ['\\'] := by decide +kernel
  have hpub : "pub static __WIT_BINDGEN_COMPONENT_TYPE: [u8; ".toList =
      'p' :: "ub static __WIT_BINDGEN_COMPONENT_TYPE: [u8; ".toList := by decide +kernel
  have hline : '\n' ∉ staticHead length := by
    unfold staticHead
    intro hmem
    rcases List.mem_append.mp hmem with hmem | hmem
    · rcases List.mem_append.mp hmem with hmem | hmem
      · exact absurd hmem (by decide +kernel)
      · exact absurd (Nat.isDigit_of_mem_toDigits (by omega) (by omega) hmem) (by decide)
    · exact absurd hmem (by decide +kernel)
  have hfirst : (staticHead length).head? = some 'p' := by
    unfold staticHead
    rw [hpub]
    rfl
  have hlast : (staticHead length).getLast? = some '\\' := by
    unfold staticHead
    rw [hopen, ← List.append_assoc, List.getLast?_append_cons]
    rfl
  exact Source.pushStr_line hline hfirst hlast (by decide) (by decide)

theorem push_quote (src : Source) : src.pushStr "\";\n".toList = src.endLine ['"', ';'] := by
  have hline : "\";\n".toList = ['"', ';'] ++ ['\n'] := by decide +kernel
  rw [hline]
  exact Source.pushStr_line (by decide) rfl rfl (by decide) (by decide)

/-- The text of the static, as it is read. -/
theorem emitStatic_s {src : Source} (h : src.continuingLine = false) (componentType : List UInt8) :
    ∃ decl, (emitStatic src componentType).s =
        src.s ++ List.replicate (2 * src.indent) ' ' ++ decl ++ ['\n'] ∧
      ∀ rest, readStatic (decl ++ rest) =
        some (componentType.length, componentType, ';' :: rest) := by
  obtain ⟨text, htext, hread⟩ := emitBytes_read componentType
    ((src.endLine (staticHead componentType.length)).s, 0)
  refine ⟨staticHead componentType.length ++ '\n' :: (text ++ ['"', ';']), ?_, fun rest => ?_⟩
  · unfold emitStatic
    rw [push_staticHead]
    dsimp only [Source.setIndent]
    rw [htext, push_quote]
    simp [Source.endLine, h]
  · have hstatic := readStatic_eq componentType (hread .skipping (Or.inr rfl) (';' :: rest))
    simpa using hstatic

/-- The function that may follow takes nothing back. -/
theorem emitFunction_keeps {src : Source} {p : List Char} (h : src.s = p ++ ['\n'])
    (funcName runtimePath : List Char) :
    ∃ rest, (emitFunction src funcName runtimePath).s = p ++ '\n' :: rest := by
  have hprefix : p ++ ['\n'] <+: (emitFunction src funcName runtimePath).s := by
    unfold emitFunction
    have hne : '\n' ≠ ' ' := by decide
    repeat apply Source.pushStr_keeps hne
    exact ⟨[], by rw [h, List.append_nil]⟩
  obtain ⟨rest, hrest⟩ := hprefix
  exact ⟨rest, by rw [← hrest, List.append_assoc]; rfl⟩

/-- What stands before the static: whole lines, and the indentation. -/
def AtLineStart (before : List Char) : Prop :=
  ∃ t n, before = t ++ '\n' :: List.replicate n ' '

/-- Whatever was printed before and whatever names go into the attributes, the static that is
printed declares the length of the component type and is read back as its bytes. -/
theorem component_type_read (src : Source) (format : Bool)
    (version pkg worldName sectionSuffix optsSuffix : List Char) (componentType : List UInt8)
    (funcName : Option (List Char)) (runtimePath : List Char) : ∃ before decl after,
      (emitCustomSection src format version pkg worldName sectionSuffix optsSuffix componentType
        funcName runtimePath).s = before ++ decl ∧ AtLineStart before ∧
      readStatic decl = some (componentType.length, componentType, ';' :: after) := by
  have hattributes : (emitAttributes src format version pkg worldName sectionSuffix
      optsSuffix).continuingLine = false ∧ ∃ t, (emitAttributes src format version pkg worldName
      sectionSuffix optsSuffix).s = t ++ ['\n'] := by
    unfold emitAttributes
    dsimp only
    rw [push_allow]
    exact ⟨rfl, _, rfl⟩
  unfold emitCustomSection
  generalize emitAttributes src format version pkg worldName sectionSuffix optsSuffix = src₁
    at hattributes
  obtain ⟨hcont, t, ht⟩ := hattributes
  obtain ⟨decl, hdecl, hread⟩ := emitStatic_s hcont componentType
  have hstart : AtLineStart (src₁.s ++ List.replicate (2 * src₁.indent) ' ') :=
    ⟨t, 2 * src₁.indent, by rw [ht, List.append_assoc]; rfl⟩
  cases funcName with
  | none => exact ⟨_, decl ++ ['\n'], _, by rw [hdecl, List.append_assoc], hstart, hread _⟩
  | some funcName =>
    obtain ⟨rest, hrest⟩ := emitFunction_keeps hdecl funcName runtimePath
    refine ⟨_, decl ++ '\n' :: rest, _, ?_, hstart, hread _⟩
    dsimp only
    rw [hrest, List.append_assoc]

end WitBindgen.Rust
