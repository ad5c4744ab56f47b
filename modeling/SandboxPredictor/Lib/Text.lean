import Mathlib.Data.List.DropRight
import Mathlib.Tactic.Common

/- ASCII text as Python reads it, over `List Char`: the lines of a file, `strip`,
   and the integers that `int` accepts. The four separators from `\x1c` on, which
   `strip` removes and `int` refuses, are taken for letters.

   Numerals are read by `readInt` and written by `Nat.toDigits` and `showInt`,
   in a base up to 16:

     `readInt_toDigits`   what is written reads back
     `readInt_strip`      white space around a numeral does not matter
     `map_strip_splitOn`  nor does it matter around a line, to its fields -/
namespace Text

/-- The white space of ASCII text. -/
def isSpace (c : Char) : Bool :=
  c == ' ' || c == '\t' || c == '\n' || c == '\x0b' || c == '\x0c' || c == '\r'

/-- `str.strip`. -/
def strip (s : List Char) : List Char := (s.dropWhile isSpace).rdropWhile isSpace

/-- The lines that successive calls of `readline` return, each with its line end; text mode
has made every line end a `\n`. -/
def lines : List Char → List (List Char)
  | [] => []
  | c :: cs =>
    if c = '\n' then [c] :: lines cs
    else match lines cs with
      | [] => [[c]]
      | l :: ls => (c :: l) :: ls

/-- The value of a digit, a letter counting from 10. -/
def digitValue (c : Char) : Option Nat :=
  if '0' ≤ c ∧ c ≤ '9' then some (c.toNat - '0'.toNat)
  else if 'a' ≤ c ∧ c ≤ 'z' then some (c.toNat - 'a'.toNat + 10)
  else if 'A' ≤ c ∧ c ≤ 'Z' then some (c.toNat - 'A'.toNat + 10)
  else none

def digit (base : Nat) (c : Char) : Option Nat := (digitValue c).filter (fun d => d < base)

/-- The digits that follow `acc`; a single underscore may stand before each. -/
def readDigits (base : Nat) : Nat → List Char → Option Nat
  | acc, [] => some acc
  | acc, '_' :: c :: cs => (digit base c).bind fun d => readDigits base (acc * base + d) cs
  | acc, c :: cs => (digit base c).bind fun d => readDigits base (acc * base + d) cs

def readNat (base : Nat) : List Char → Option Nat
  | [] => none
  | c :: cs => (digit base c).bind fun d => readDigits base d cs

/-- The prefix `0x` in base 16, `0b` in base 2, with an underscore behind it. -/
def dropPrefix (base : Nat) : List Char → List Char
  | '0' :: c :: cs =>
    if base = 16 ∧ (c = 'x' ∨ c = 'X') ∨ base = 2 ∧ (c = 'b' ∨ c = 'B') then
      match cs with
      | '_' :: cs => cs
      | cs => cs
    else '0' :: c :: cs
  | cs => cs

/-- `int(s, base)`, `none` for its `ValueError`: white space, a sign, a prefix, digits. -/
def readInt (base : Nat) (s : List Char) : Option Int :=
  match strip s with
  | '-' :: cs => (readNat base (dropPrefix base cs)).map fun n => -(n : Int)
  | '+' :: cs => (readNat base (dropPrefix base cs)).map fun n => (n : Int)
  | cs => (readNat base (dropPrefix base cs)).map fun n => (n : Int)

/-- An integer in `base`, the way `format` writes it. -/
def showInt (base : Nat) (i : Int) : List Char :=
  if i < 0 then '-' :: Nat.toDigits base i.natAbs else Nat.toDigits base i.natAbs

/-! ## Lines -/

theorem lines_append {l : List Char} (hl : '\n' ∉ l) (rest : List Char) :
    lines (l ++ '\n' :: rest) = (l ++ ['\n']) :: lines rest := by
  induction l with
  | nil => rfl
  | cons c l ih =>
    rw [List.mem_cons, not_or] at hl
    rw [List.cons_append, lines, if_neg (Ne.symm hl.1), ih hl.2]
    rfl

/-- Text made of lines. -/
theorem lines_flatten {ls : List (List Char)}
    (hls : ∀ l ∈ ls, ∃ l', l = l' ++ ['\n'] ∧ '\n' ∉ l') : lines ls.flatten = ls := by
  induction ls with
  | nil => rfl
  | cons l ls ih =>
    obtain ⟨l', rfl, hl'⟩ := hls l List.mem_cons_self
    rw [List.flatten_cons, List.append_assoc, List.singleton_append, lines_append hl',
      ih (fun m hm => hls m (List.mem_cons_of_mem _ hm))]

/-! ## White space -/

section Strip
variable {c : Char} {l : List Char}

theorem strip_cons (hc : isSpace c = true) (l : List Char) : strip (c :: l) = strip l := by
  rw [strip, List.dropWhile_cons_of_pos hc]
  rfl

theorem strip_snoc (hc : isSpace c = true) (l : List Char) : strip (l ++ [c]) = strip l := by
  rw [strip, strip, List.dropWhile_append]
  split
  next hempty =>
    rw [List.isEmpty_iff.1 hempty, List.dropWhile_cons_of_pos hc, List.dropWhile_nil]
  next =>
    rw [List.rdropWhile_concat_pos _ _ _ hc]

theorem strip_append {p : List Char} (hp : ∀ c ∈ p, isSpace c = true) (l : List Char) :
    strip (p ++ l) = strip l := by
  induction p with
  | nil => rfl
  | cons c p ih =>
    rw [List.cons_append, strip_cons (hp c List.mem_cons_self),
      ih (fun d hd => hp d (List.mem_cons_of_mem c hd))]

theorem append_strip {q : List Char} (hq : ∀ c ∈ q, isSpace c = true) (l : List Char) :
    strip (l ++ q) = strip l := by
  induction q generalizing l with
  | nil => rw [List.append_nil]
  | cons c q ih =>
    rw [List.append_cons, ih (fun d hd => hq d (List.mem_cons_of_mem c hd)),
      strip_snoc (hq c List.mem_cons_self)]

/-- Text is its stripped text between white space. -/
theorem exists_strip (l : List Char) : ∃ p q, l = p ++ strip l ++ q ∧
    (∀ c ∈ p, isSpace c = true) ∧ ∀ c ∈ q, isSpace c = true := by
  refine ⟨l.takeWhile isSpace, (l.dropWhile isSpace).rtakeWhile isSpace, ?_, ?_, ?_⟩
  · rw [strip, List.append_assoc, List.rdropWhile_append_rtakeWhile,
      List.takeWhile_append_dropWhile]
  · intro c hc
    exact List.mem_takeWhile_imp hc
  · intro c hc
    exact List.mem_rtakeWhile_imp hc

theorem strip_strip (l : List Char) : strip (strip l) = strip l := by
  obtain ⟨p, q, hl, hp, hq⟩ := exists_strip l
  conv_rhs => rw [hl]
  rw [append_strip hq, strip_append hp]

theorem strip_eq_self (hl : ∀ c ∈ l, isSpace c = false) : strip l = l := by
  have hdrop : l.dropWhile isSpace = l := by
    rw [List.dropWhile_eq_self_iff]
    intro hpos
    simp [hl _ (List.getElem_mem hpos)]
  rw [strip, hdrop, List.rdropWhile_eq_self_iff]
  intro hne
  simp [hl _ (List.getLast_mem hne)]

/-- White space at the end of a line stays in the last field. -/
theorem map_strip_splitOn_append {sep : Char} {q : List Char}
    (hq : ∀ c ∈ q, isSpace c = true) (hsep : isSpace sep = false) (l : List Char) :
    ((l ++ q).splitOn sep).map strip = (l.splitOn sep).map strip := by
  have hsepq : sep ∉ q := fun hmem => by simp [hq sep hmem] at hsep
  by_cases hl : sep ∈ l
  · -- the first field is the same, and the rest is a shorter line
    obtain ⟨field, rest, rfl, hfield⟩ := List.eq_append_cons_of_mem hl
    rw [List.append_assoc, List.cons_append, List.splitOn_append_cons_self_of_not_mem hfield,
      List.splitOn_append_cons_self_of_not_mem hfield, List.map_cons, List.map_cons,
      map_strip_splitOn_append hq hsep rest]
  · rw [List.splitOn_eq_singleton hl, List.splitOn_eq_singleton (by simp [hl, hsepq]),
      List.map_singleton, List.map_singleton, append_strip hq]
termination_by l.length
decreasing_by subst_vars; simp; omega

theorem map_strip_append_splitOn {sep : Char} {p : List Char}
    (hp : ∀ c ∈ p, isSpace c = true) (hsep : isSpace sep = false) (l : List Char) :
    ((p ++ l).splitOn sep).map strip = (l.splitOn sep).map strip := by
  have hsepp : sep ∉ p := fun hmem => by simp [hp sep hmem] at hsep
  by_cases hl : sep ∈ l
  · obtain ⟨field, rest, rfl, hfield⟩ := List.eq_append_cons_of_mem hl
    rw [← List.append_assoc, List.splitOn_append_cons_self_of_not_mem (by simp [hsepp, hfield]),
      List.splitOn_append_cons_self_of_not_mem hfield, List.map_cons, List.map_cons,
      strip_append hp]
  · rw [List.splitOn_eq_singleton hl, List.splitOn_eq_singleton (by simp [hl, hsepp]),
      List.map_singleton, List.map_singleton, strip_append hp]

/-- Stripping a line changes its fields by white space only. -/
theorem map_strip_splitOn {sep : Char} (hsep : isSpace sep = false) (l : List Char) :
    ((strip l).splitOn sep).map strip = (l.splitOn sep).map strip := by
  obtain ⟨p, q, hl, hp, hq⟩ := exists_strip l
  conv_rhs => rw [hl]
  rw [map_strip_splitOn_append hq hsep, map_strip_append_splitOn hp hsep]

end Strip

/-! ## Numerals -/

theorem readInt_strip (base : Nat) (s : List Char) : readInt base (strip s) = readInt base s := by
  unfold readInt
  rw [strip_strip]

section
variable {base d : Nat}

theorem digit_digitChar (hd : d < base) (hbase : base ≤ 16) :
    digit base d.digitChar = some d := by
  have hvalue : ∀ d < 16, digitValue d.digitChar = some d := by decide
  rw [digit, hvalue d (by omega)]
  simp [hd]

theorem mem_toDigits (hbase : 1 < base) {n : Nat} {c : Char} (hc : c ∈ Nat.toDigits base n) :
    ∃ d < base, c = d.digitChar := by
  induction n using Nat.strongRecOn with
  | ind n ih =>
    rw [Nat.toDigits_eq_if hbase] at hc
    split at hc
    next hlt =>
      exact ⟨n, hlt, List.mem_singleton.1 hc⟩
    next hge =>
      rcases List.mem_append.1 hc with hc | hc
      · exact ih (n / base) (Nat.div_lt_self (by omega) hbase) hc
      · exact ⟨n % base, Nat.mod_lt n (by omega), List.mem_singleton.1 hc⟩

/-- A separator is in no numeral. -/
theorem not_mem_toDigits (hbase : 1 < base) (hle : base ≤ 16) {c : Char}
    (hc : digitValue c = none) (n : Nat) : c ∉ Nat.toDigits base n := by
  intro hmem
  obtain ⟨d, hd, rfl⟩ := mem_toDigits hbase hmem
  have hdigit := digit_digitChar hd hle
  rw [digit, hc] at hdigit
  cases hdigit

theorem digit_underscore (base : Nat) : digit base '_' = none := rfl

theorem readDigits_cons {c : Char} (hc : digit base c = some d) (acc : Nat) (cs : List Char) :
    readDigits base acc (c :: cs) = readDigits base (acc * base + d) cs := by
  have hne : c ≠ '_' := by
    rintro rfl
    rw [digit_underscore] at hc
    cases hc
  rw [readDigits.eq_3 base acc c cs (by intro c' cs' h _; exact hne h), hc, Option.bind_some]

/-- A further digit behind a numeral. -/
theorem readDigits_snoc {n : Nat} {c : Char} (hc : digit base c = some d) (acc : Nat)
    (cs : List Char) (hcs : readDigits base acc cs = some n) :
    readDigits base acc (cs ++ [c]) = some (n * base + d) := by
  fun_induction readDigits base acc cs with
  | case1 acc =>
    rw [List.nil_append, readDigits_cons hc, readDigits, Option.some.inj hcs]
  | case2 acc c' cs ih =>
    obtain ⟨d', hd', hread⟩ := Option.bind_eq_some_iff.1 hcs
    rw [List.cons_append, List.cons_append, readDigits, hd', Option.bind_some]
    exact ih d' hread
  | case3 acc c' cs _ ih =>
    obtain ⟨d', hd', hread⟩ := Option.bind_eq_some_iff.1 hcs
    rw [List.cons_append, readDigits_cons hd']
    exact ih d' hread

theorem readNat_snoc {n : Nat} {c : Char} {cs : List Char} (hc : digit base c = some d)
    (hcs : readNat base cs = some n) : readNat base (cs ++ [c]) = some (n * base + d) := by
  cases cs with
  | nil => cases hcs
  | cons c' cs =>
    obtain ⟨d', hd', hread⟩ := Option.bind_eq_some_iff.1 hcs
    rw [List.cons_append, readNat, hd', Option.bind_some]
    exact readDigits_snoc hc d' cs hread

theorem readNat_toDigits (hbase : 1 < base) (hle : base ≤ 16) (n : Nat) :
    readNat base (Nat.toDigits base n) = some n := by
  induction n using Nat.strongRecOn with
  | ind n ih =>
    rw [Nat.toDigits_eq_if hbase]
    split
    next hlt =>
      rw [readNat, digit_digitChar hlt hle]
      rfl
    next hge =>
      have hdiv := ih (n / base) (Nat.div_lt_self (by omega) hbase)
      rw [readNat_snoc (digit_digitChar (Nat.mod_lt n (by omega)) hle) hdiv, Nat.mul_comm,
        Nat.div_add_mod]

/-- No numeral of a base up to 16 has the letter of a prefix behind its first digit. -/
theorem dropPrefix_toDigits (hbase : 1 < base) (hle : base ≤ 16) (n : Nat) :
    dropPrefix base (Nat.toDigits base n) = Nat.toDigits base n := by
  have hx : ∀ c ∈ Nat.toDigits base n, c ≠ 'x' ∧ c ≠ 'X' := by
    intro c hc
    obtain ⟨d, hd, rfl⟩ := mem_toDigits hbase hc
    have hall : ∀ d < 16, d.digitChar ≠ 'x' ∧ d.digitChar ≠ 'X' := by decide
    exact hall d (by omega)
  have hb : base = 2 → ∀ c ∈ Nat.toDigits base n, c ≠ 'b' ∧ c ≠ 'B' := by
    rintro rfl c hc
    obtain ⟨d, hd, rfl⟩ := mem_toDigits hbase hc
    have hall : ∀ d < 2, d.digitChar ≠ 'b' ∧ d.digitChar ≠ 'B' := by decide
    exact hall d hd
  unfold dropPrefix
  split
  next c cs heq =>
    have hc : c ∈ Nat.toDigits base n := by simp [heq]
    rw [if_neg, heq]
    rintro (⟨_, h⟩ | ⟨h2, h⟩)
    · simp [hx c hc] at h
    · simp [hb h2 c hc] at h
  next => rfl

/-- A numeral has no white space and no sign in it. -/
theorem toDigits_plain (hbase : 1 < base) (hle : base ≤ 16) (n : Nat) :
    ∀ c ∈ Nat.toDigits base n, isSpace c = false ∧ c ≠ '-' ∧ c ≠ '+' := by
  intro c hc
  obtain ⟨d, hd, rfl⟩ := mem_toDigits hbase hc
  have hall : ∀ d < 16, isSpace d.digitChar = false ∧ d.digitChar ≠ '-' ∧ d.digitChar ≠ '+' := by
    decide
  exact hall d (by omega)

/-- **Reading back.** A numeral reads as the number it was written from. -/
theorem readInt_toDigits (hbase : 1 < base) (hle : base ≤ 16) (n : Nat) :
    readInt base (Nat.toDigits base n) = some (n : Int) := by
  have hplain := toDigits_plain hbase hle n
  unfold readInt
  rw [strip_eq_self (fun c hc => (hplain c hc).1)]
  split
  next cs heq =>
    exact absurd rfl (hplain '-' (by simp [heq])).2.1
  next cs heq =>
    exact absurd rfl (hplain '+' (by simp [heq])).2.2
  next =>
    rw [dropPrefix_toDigits hbase hle, readNat_toDigits hbase hle]
    rfl

theorem readInt_showInt (hbase : 1 < base) (hle : base ≤ 16) (i : Int) :
    readInt base (showInt base i) = some i := by
  unfold showInt
  split
  next hneg =>
    have hplain : ∀ c ∈ '-' :: Nat.toDigits base i.natAbs, isSpace c = false := by
      intro c hc
      rcases List.mem_cons.1 hc with rfl | hc
      · rfl
      · exact (toDigits_plain hbase hle _ c hc).1
    unfold readInt
    rw [strip_eq_self hplain]
    simp only [dropPrefix_toDigits hbase hle, readNat_toDigits hbase hle]
    show some (-(i.natAbs : Int)) = some i
    congr 1
    omega
  next hnonneg =>
    rw [readInt_toDigits hbase hle]
    congr 1
    omega

end

end Text
