import Mathlib.Data.List.Basic
import Mathlib.Data.List.DropRight

/-!
# Source text under construction

`Source` of `source.rs`. What is pushed is indented line by line; a line that ends in an
opening brace indents the lines after it, and one that begins with a closing brace moves
itself and the lines after it back.
-/

namespace WitBindgen.Core

/-! ## Lines and blanks of Rust strings -/

/-- `char::is_whitespace`. -/
def isWhitespace (c : Char) : Bool :=
  (0x09 ≤ c.toNat && c.toNat ≤ 0x0D) || c.toNat == 0x20 || c.toNat == 0x85 || c.toNat == 0xA0 ||
    c.toNat == 0x1680 || (0x2000 ≤ c.toNat && c.toNat ≤ 0x200A) || c.toNat == 0x2028 ||
    c.toNat == 0x2029 || c.toNat == 0x202F || c.toNat == 0x205F || c.toNat == 0x3000

/-- `str::trim_start`. -/
def trimStart (s : List Char) : List Char := s.dropWhile isWhitespace

/-- `str::trim`. -/
def trim (s : List Char) : List Char := (trimStart s).rdropWhile isWhitespace

/-- A line that was ended by a line feed, less a carriage return before it. -/
def chompCr (line : List Char) : List Char :=
  if line.getLast? = some '\r' then line.dropLast else line

/-- `str::lines`; `line` is what the current line has so far. A last line without a line
feed keeps its carriage return, and there is none when the text ends in a line feed. -/
def linesFrom (line : List Char) : List Char → List (List Char)
  | [] => if line = [] then [] else [line]
  | c :: cs => if c = '\n' then chompCr line :: linesFrom [] cs else linesFrom (line ++ [c]) cs

def lines (s : List Char) : List (List Char) := linesFrom [] s

/-- `pop` twice where the text ends in two blanks. -/
def popIndent (s : List Char) : List Char :=
  if [' ', ' '].isSuffixOf s then s.dropLast.dropLast else s

/-! ## Pushing -/

structure Source where
  s : List Char
  indent : Nat
  inLineComment : Bool
  continuingLine : Bool
deriving DecidableEq

namespace Source

def newline (src : Source) : Source :=
  { src with inLineComment := false, continuingLine := false, s := src.s ++ ['\n'] }

/-- The indentation, unless the line was begun by what was pushed before. -/
def beginLine (src : Source) (line : List Char) : Source :=
  if src.continuingLine then src
  else
    let s := if line = [] then src.s else src.s ++ List.replicate (2 * src.indent) ' '
    { src with s := s, continuingLine := true }

def enterComment (interpretSyntax : Bool) (src : Source) (trimmed : List Char) : Source :=
  if interpretSyntax && ['/', '/'].isPrefixOf trimmed then { src with inLineComment := true }
  else src

/-- A closing brace at the head of a line moves back. -/
def closeBrace (interpretSyntax : Bool) (src : Source) (trimmed : List Char) : Source :=
  if interpretSyntax && !src.inLineComment && ['}'].isPrefixOf trimmed then
    { src with s := popIndent src.s }
  else src

def shift (interpretSyntax : Bool) (src : Source) (trimmed : List Char) : Source :=
  if interpretSyntax && !src.inLineComment then
    let indent := if ['{'].isSuffixOf trimmed then src.indent + 1 else src.indent
    { src with indent := if ['}'].isPrefixOf trimmed then indent - 1 else indent }
  else src

/-- Whether this is the only line, and whether a line feed ends it. -/
def pushLine (interpretSyntax single ended : Bool) (src : Source) (line : List Char) : Source :=
  let src := src.beginLine line
  let trimmed := trim line
  let src := enterComment interpretSyntax src trimmed
  let src := closeBrace interpretSyntax src trimmed
  let src := { src with s := src.s ++ if single then line else trimStart line }
  let src := shift interpretSyntax src trimmed
  if ended then src.newline else src

/-- The lines that are left; `endsInNewline` is whether the whole text ends in a line feed. -/
def pushLines (interpretSyntax single endsInNewline : Bool) (src : Source) :
    List (List Char) → Source
  | [] => src
  | [line] => src.pushLine interpretSyntax single endsInNewline line
  | line :: rest =>
    (src.pushLine interpretSyntax single true line).pushLines interpretSyntax single
      endsInNewline rest

def pushStrImpl (src : Source) (text : List Char) (interpretSyntax : Bool) : Source :=
  let ls := lines text
  src.pushLines interpretSyntax (ls.length == 1) (text.getLast? == some '\n') ls

def pushStr (src : Source) (text : List Char) : Source := src.pushStrImpl text true

/-- The new indentation; the caller keeps the old one. -/
def setIndent (src : Source) (amt : Nat) : Source := { src with indent := amt }

/-! ## A line of its own -/

variable {src : Source} {text line p : List Char}

theorem linesFrom_line (hline : '\n' ∉ line) (before : List Char) :
    linesFrom before (line ++ ['\n']) = [chompCr (before ++ line)] := by
  induction line generalizing before with
  | nil => simp [linesFrom]
  | cons c cs ih =>
    rw [List.mem_cons, not_or] at hline
    obtain ⟨hc, hcs⟩ := hline
    rw [List.cons_append, linesFrom, if_neg (Ne.symm hc), ih hcs, List.append_assoc]
    rfl

theorem trim_eq_self {first last : Char} (hfirst : line.head? = some first)
    (hlast : line.getLast? = some last) (hf : isWhitespace first = false)
    (hl : isWhitespace last = false) : trim line = line := by
  have hstart : trimStart line = line := by
    cases line with
    | nil => rfl
    | cons c cs =>
      injection hfirst with hfirst
      subst hfirst
      unfold trimStart
      rw [List.dropWhile_cons_of_neg (by simp [hf])]
  unfold trim
  rw [hstart, List.rdropWhile_eq_self_iff]
  intro hne
  rw [List.getLast?_eq_getLast_of_ne_nil hne] at hlast
  injection hlast with hlast
  simp [hlast, hl]

/-- The source with one more line, which ends here. -/
def endLine (src : Source) (line : List Char) : Source :=
  { s := src.s ++ (if src.continuingLine then [] else List.replicate (2 * src.indent) ' ') ++
      line ++ ['\n'],
    indent := src.indent, inLineComment := false, continuingLine := false }

/-- A line without braces or comment slashes at its ends is pushed as it is. -/
theorem pushStr_line {first last : Char} (hline : '\n' ∉ line)
    (hfirst : line.head? = some first) (hlast : line.getLast? = some last)
    (hf : isWhitespace first = false ∧ first ≠ '/' ∧ first ≠ '}')
    (hl : isWhitespace last = false ∧ last ≠ '{') :
    src.pushStr (line ++ ['\n']) = src.endLine line := by
  have hcr : chompCr line = line := by
    unfold chompCr
    rw [if_neg]
    intro h
    rw [hlast] at h
    injection h with h
    rw [h] at hl
    exact absurd hl.1 (by decide)
  have hlines : lines (line ++ ['\n']) = [line] := by
    unfold lines
    rw [linesFrom_line hline, List.nil_append, hcr]
  have htrim := trim_eq_self hfirst hlast hf.1 hl.1
  have hne : line ≠ [] := by
    rintro rfl
    cases hfirst
  have hslash : ['/', '/'].isPrefixOf line = false := by
    cases line with
    | nil => rfl
    | cons c cs =>
      injection hfirst with hfirst
      subst hfirst
      simp [List.isPrefixOf, Ne.symm hf.2.1]
  have hclose : ['}'].isPrefixOf line = false := by
    cases line with
    | nil => rfl
    | cons c cs =>
      injection hfirst with hfirst
      subst hfirst
      simp [List.isPrefixOf, Ne.symm hf.2.2]
  have hopen : ['{'].isSuffixOf line = false := by
    rw [Bool.eq_false_iff]
    intro h
    obtain ⟨t, ht⟩ := List.isSuffixOf_iff_suffix.mp h
    rw [← ht, List.getLast?_append_cons] at hlast
    injection hlast with hlast
    exact hl.2 hlast.symm
  unfold pushStr pushStrImpl endLine
  rw [hlines]
  cases hcont : src.continuingLine <;> cases hcomment : src.inLineComment <;>
    simp [pushLines, pushLine, beginLine, enterComment, closeBrace, shift, newline, hcont,
       hcomment, hne, htrim, hslash, hclose, hopen]

/-! ## What is pushed later -/

/-- Two blanks at the end are all that a closing brace takes back. -/
theorem popIndent_keeps {c : Char} (hc : c ≠ ' ') (h : p ++ [c] <+: text) :
    p ++ [c] <+: popIndent text := by
  unfold popIndent
  split
  · next hblank =>
      obtain ⟨t, rfl⟩ := List.isSuffixOf_iff_suffix.mp hblank
      have hdrop : (t ++ [' ', ' ']).dropLast.dropLast = t := by simp
      rw [hdrop]
      refine List.prefix_of_prefix_length_le h (List.prefix_append t _) ?_
      by_contra hlong
      rw [List.length_append, List.length_singleton, not_le] at hlong
      obtain ⟨rest, hrest⟩ := h
      have hat : (t ++ [' ', ' '])[p.length]? = some c := by
        rw [← hrest, List.append_assoc, List.getElem?_append_right (Nat.le_refl _)]
        simp
      rw [List.getElem?_append_right (by omega)] at hat
      obtain ⟨hlt, hget⟩ := List.getElem?_eq_some_iff.mp hat
      have hmem := List.getElem_mem hlt
      rw [hget] at hmem
      simp at hmem
      exact hc hmem
  · exact h

theorem pushLine_keeps {c : Char} (hc : c ≠ ' ') (h : p ++ [c] <+: src.s)
    (interpretSyntax single ended : Bool) (line : List Char) :
    p ++ [c] <+: (src.pushLine interpretSyntax single ended line).s := by
  have hbegin : p ++ [c] <+: (src.beginLine line).s := by
    unfold beginLine
    split
    · exact h
    · dsimp only
      split
      · exact h
      · exact h.trans (List.prefix_append _ _)
  have hcomment : p ++ [c] <+: (enterComment interpretSyntax (src.beginLine line) (trim line)).s := by
    unfold enterComment
    split <;> exact hbegin
  unfold pushLine
  dsimp only
  generalize enterComment interpretSyntax (src.beginLine line) (trim line) = src₁ at hcomment
  have hclose : p ++ [c] <+: (closeBrace interpretSyntax src₁ (trim line)).s := by
    unfold closeBrace
    split
    · exact popIndent_keeps hc hcomment
    · exact hcomment
  generalize closeBrace interpretSyntax src₁ (trim line) = src₂ at hclose
  have hpush := hclose.trans
    (List.prefix_append src₂.s (if single then line else trimStart line))
  have hshift : ∀ src₃ : Source, (shift interpretSyntax src₃ (trim line)).s = src₃.s := by
    intro src₃
    unfold shift
    split <;> rfl
  split
  · unfold newline
    dsimp only
    rw [hshift]
    exact hpush.trans (List.prefix_append _ _)
  · rw [hshift]
    exact hpush

/-- Later text takes nothing back beyond the blanks at the end. -/
theorem pushStr_keeps {c : Char} (hc : c ≠ ' ') (h : p ++ [c] <+: src.s) (text : List Char) :
    p ++ [c] <+: (src.pushStr text).s := by
  unfold pushStr pushStrImpl
  dsimp only
  generalize lines text = ls
  generalize (ls.length == 1) = single
  generalize (text.getLast? == some '\n') = ended
  induction ls generalizing src with
  | nil => exact h
  | cons line rest ih =>
    cases rest with
    | nil => exact pushLine_keeps hc h true single ended line
    | cons line' rest => exact ih (pushLine_keeps hc h true single true line)

end Source

end WitBindgen.Core
