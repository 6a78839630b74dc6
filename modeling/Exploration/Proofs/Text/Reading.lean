import Mathlib.Data.List.Basic
import Exploration.Text.Quoted

/-!
# Reading quoted text

What stands between the quotes can be read back character by character, without knowing which
characters were plain: a backslash tells the others apart, and a code point ends at its brace. So a
quotation belongs to one text only, also if two writers differ in what they take for plain.
-/

namespace Exploration.Text

/-- The value of a hexadecimal digit. -/
def digitValue (c : Char) : Nat :=
  if c.isDigit then c.toNat - '0'.toNat else c.toNat - 'a'.toNat + 10

/-- The number written by hexadecimal digits. -/
def hexValue (ds : List Char) : Nat := ds.foldl (fun n d => 16 * n + digitValue d) 0

theorem hexValue_snoc (ds : List Char) (d : Char) :
    hexValue (ds ++ [d]) = 16 * hexValue ds + digitValue d := by
  simp [hexValue]

theorem digitValue_digitChar {k : Nat} (h : k < 16) : digitValue k.digitChar = k := by
  revert k
  decide

theorem hexValue_toDigits (n : Nat) : hexValue (Nat.toDigits 16 n) = n := by
  induction n using Nat.strongRecOn with
  | ind n ih =>
    rw [Nat.toDigits_eq_if (by omega)]
    split
    · next small => exact (Nat.zero_add _).trans (digitValue_digitChar small)
    · next large =>
      rw [hexValue_snoc, ih (n / 16) (by omega), digitValue_digitChar (by omega)]
      omega

theorem brace_notMem_toDigits (n : Nat) : '\x7d' ∉ Nat.toDigits 16 n := by
  have digit {k : Nat} (h : k < 16) : '\x7d' ≠ k.digitChar := by
    revert k
    decide
  induction n using Nat.strongRecOn with
  | ind n ih =>
    rw [Nat.toDigits_eq_if (by omega)]
    split
    · next small => exact fun mem => digit small (List.mem_singleton.1 mem)
    · next large =>
      rw [List.mem_append, List.mem_singleton]
      exact not_or.2 ⟨ih (n / 16) (by omega), digit (by omega)⟩

/-- The character that a letter or sign behind a backslash stands for. -/
def unescape : Char → Char
  | '0' => '\x00'
  | 't' => '\t'
  | 'n' => '\n'
  | 'r' => '\r'
  | c => c

/-- The first character of what stands before the closing quote, and what is written behind it. -/
def readChar : List Char → Option (Char × List Char)
  | [] => none
  | '"' :: _ => none
  | '\\' :: 'u' :: rest =>
    let inner := rest.tail
    some (Char.ofNat (hexValue (inner.takeWhile (· ≠ '\x7d'))),
      (inner.dropWhile (· ≠ '\x7d')).tail)
  | '\\' :: c :: rest => some (unescape c, rest)
  | c :: rest => some (c, rest)

theorem readChar_codePoint (c : Char) (rest : List Char) :
    readChar (codePoint c ++ rest) = some (c, rest) := by
  have digits : ∀ d ∈ Nat.toDigits 16 c.toNat, decide (d ≠ '\x7d') = true := by
    intro d hd
    rw [decide_eq_true_eq]
    rintro rfl
    exact brace_notMem_toDigits _ hd
  have inner : codePoint c ++ rest =
      '\\' :: 'u' :: '\x7b' :: (Nat.toDigits 16 c.toNat ++ '\x7d' :: rest) := by
    simp [codePoint]
  rw [inner, readChar, List.tail_cons, List.takeWhile_append_of_pos digits,
    List.dropWhile_append_of_pos digits]
  simp [hexValue_toDigits]

theorem readChar_of_plain {c : Char} (quote : c ≠ '"') (backslash : c ≠ '\\')
    (rest : List Char) : readChar (c :: rest) = some (c, rest) := by
  rw [readChar.eq_def]
  split <;> simp_all

/-- A character is read back as it was written, whatever is plain. -/
theorem readChar_escape (plain : Char → Bool) (c : Char) (rest : List Char) :
    readChar (escape plain c ++ rest) = some (c, rest) := by
  rw [escape]
  split
  · next h => rw [h]; rfl
  split
  · next h => rw [h]; rfl
  split
  · next h => rw [h]; rfl
  split
  · next h => rw [h]; rfl
  split
  · next h => rw [h]; rfl
  split
  · next h => rw [h]; rfl
  split
  · next quote backslash _ => exact readChar_of_plain quote backslash rest
  · exact readChar_codePoint c rest

/-- A quotation is that of one text, also when it is read with another idea of what is plain. -/
theorem eq_of_quote_eq {plain plain' : Char → Bool} {cs ds : List Char}
    (same : quote plain cs = quote plain' ds) : cs = ds := by
  have inside := (List.cons.inj same).2
  clear same
  -- Reading takes one character off both; the closing quote is not read as one.
  induction cs generalizing ds with
  | nil =>
    cases ds with
    | nil => rfl
    | cons d ds =>
      rw [List.flatMap_cons, List.append_assoc] at inside
      have read := readChar_escape plain' d (ds.flatMap (escape plain') ++ ['"'])
      rw [← inside] at read
      cases read
  | cons c cs ih =>
    rw [List.flatMap_cons, List.append_assoc] at inside
    have read := readChar_escape plain c (cs.flatMap (escape plain) ++ ['"'])
    rw [inside] at read
    cases ds with
    | nil => cases read
    | cons d ds =>
      rw [List.flatMap_cons, List.append_assoc, readChar_escape] at read
      obtain ⟨rfl, rest⟩ := Prod.mk.inj (Option.some.inj read)
      rw [ih rest.symm]

end Exploration.Text
