import Mathlib
import Exploration.Order
import Exploration.Proofs.Text.Reading

/-!
# Names that are read and names that are refused

An order is read from its names with any mixture of ASCII capitals and small letters, and from
nothing else. A refusal quotes the name as it was given, so it tells which name was refused.
-/

namespace Exploration.Order

def IsCapital (c : Char) : Prop := 'A'.toNat ≤ c.toNat ∧ c.toNat ≤ 'Z'.toNat

instance (c : Char) : Decidable (IsCapital c) := inferInstanceAs (Decidable (_ ∧ _))

/-- An ASCII capital made small; every other character is left as it is. -/
def small (c : Char) : Char := if IsCapital c then Char.ofNat (c.toNat + 32) else c

def lowered (s : String) : String := String.ofList (s.toList.map small)

theorem small_of_capital {c : Char} (capital : IsCapital c) : (small c).toNat = c.toNat + 32 := by
  have shift : ∀ n < 91, (Char.ofNat (n + 32)).toNat = n + 32 := by decide
  rw [small, if_pos capital]
  exact shift c.toNat (Nat.lt_succ_of_le capital.2)

theorem small_of_not_capital {c : Char} (other : ¬ IsCapital c) : small c = c := if_neg other

theorem isCapital_iff {c : Char} : IsCapital c ↔ c.isUpper := decide_eq_true_iff.symm

theorem small_eq_toLower (c : Char) : small c = c.toLower := by
  by_cases capital : IsCapital c
  · rw [small, if_pos capital, Char.toLower_eq_of_isUpper (isCapital_iff.1 capital)]
  · rw [small_of_not_capital capital,
      Char.toLower_eq_of_not_isUpper (mt isCapital_iff.2 capital)]

theorem lowered_eq_toLower (s : String) : lowered s = s.toLower := by
  have letters : s.toLower.toList = s.toList.map Char.toLower := String.toList_map
  rw [← String.toList_inj, lowered, String.toList_ofList, letters]
  exact List.map_congr_left fun c _ => small_eq_toLower c

/-- The same character, or an ASCII capital and the small letter of it. -/
def SameLetter (c d : Char) : Prop :=
  c = d ∨ IsCapital c ∧ d.toNat = c.toNat + 32 ∨ IsCapital d ∧ c.toNat = d.toNat + 32

theorem small_eq_of_sameLetter {c d : Char} (same : SameLetter c d) : small c = small d := by
  have shifted {c d : Char} (capital : IsCapital c) (next : d.toNat = c.toNat + 32) :
      small c = small d := by
    have other : ¬ IsCapital d := fun upper => by
      have low : 65 ≤ c.toNat := capital.1
      have high : d.toNat ≤ 90 := upper.2
      omega
    rw [small_of_not_capital other, ← Char.toNat_inj, small_of_capital capital, next]
  rcases same with rfl | ⟨capital, next⟩ | ⟨capital, next⟩
  · rfl
  · exact shifted capital next
  · exact (shifted capital next).symm

theorem lowered_eq_of_sameLetters {s t : String}
    (same : List.Forall₂ SameLetter s.toList t.toList) : lowered s = lowered t := by
  have letters : List.Forall₂ (· = ·) (s.toList.map small) (t.toList.map small) := by
    rw [List.forall₂_map_left_iff, List.forall₂_map_right_iff]
    exact same.imp fun _ _ => small_eq_of_sameLetter
  rw [List.forall₂_eq_eq_eq] at letters
  rw [lowered, lowered, letters]

theorem ofName_eq_ok_iff_lowered {s : String} {o : Order} :
    ofName s = .ok o ↔ lowered s ∈ o.names := by
  rw [lowered_eq_toLower, ofName_eq_ok_iff]

theorem ascii_of_mem_names {o : Order} {n : String} (h : n ∈ o.names) :
    ∀ c ∈ n.toList, c.toNat < 128 := by
  have all : (o.names.all fun n => n.toList.all fun c => c.toNat < 128) = true := by
    cases o <;> rfl
  simpa using List.all_eq_true.1 all n h

/-- What is read as an order is ASCII throughout. -/
theorem ascii_of_ofName {s : String} {o : Order} (read : ofName s = .ok o) :
    ∀ c ∈ s.toList, c.toNat < 128 := by
  intro c hc
  have there : small c ∈ (lowered s).toList := by
    rw [lowered, String.toList_ofList]
    exact List.mem_map_of_mem hc
  have low : (small c).toNat < 128 :=
    ascii_of_mem_names (ofName_eq_ok_iff_lowered.1 read) (small c) there
  by_cases capital : IsCapital c
  · have high : c.toNat ≤ 90 := capital.2
    omega
  · rwa [small_of_not_capital capital] at low

/-- The text that refuses `name`, if the characters that are `plain` are shown as themselves. -/
def refusal (plain : Char → Bool) (name : String) : String :=
  "unknown traversal order: " ++ String.ofList (Text.quote plain name.toList)

theorem eq_of_refusal_eq {plain plain' : Char → Bool} {s t : String}
    (same : refusal plain s = refusal plain' t) : s = t := by
  have quoted : Text.quote plain s.toList = Text.quote plain' t.toList :=
    String.ofList_inj.1 ((String.append_right_inj _).1 same)
  exact String.toList_inj.1 (Text.eq_of_quote_eq quoted)

/-- An order is read from its names, in whatever case their ASCII letters are written, and from
nothing else: no other character becomes a letter of a name. Every other text is refused as it
stands, and the message quotes it in such a way that no other text has the same message, whatever
characters are shown as themselves. -/
theorem ofName_lossless (s : String) :
    (ofName s = .ok .breadthFirst ↔ lowered s ∈ ["bfs", "breadth-first", "breadth_first"]) ∧
    (ofName s = .ok .depthFirst ↔ lowered s ∈ ["dfs", "depth-first", "depth_first"]) ∧
    (∀ o, ofName s = .ok o → ∀ c ∈ s.toList, c.toNat < 128) ∧
    (∀ t : String, List.Forall₂ SameLetter s.toList t.toList →
      ∀ o, ofName s = .ok o ↔ ofName t = .ok o) ∧
    (ofName s = .error (.unknownOrder s) ↔ ∀ o, ofName s ≠ .ok o) ∧
    (∀ e, ofName s = .error e → e = .unknownOrder s ∧ e.message = refusal Text.isGraphic s) ∧
    (∀ t e e', ofName s = .error e → ofName t = .error e' → e.message = e'.message → s = t) ∧
    ∀ t plain plain', refusal plain s = refusal plain' t → s = t := by
  have refused {s : String} {e : Error} (h : ofName s = .error e) :
      e = .unknownOrder s ∧ e.message = refusal Text.isGraphic s := by
    obtain ⟨-, rfl⟩ := ofName_eq_error_iff.1 h
    exact ⟨rfl, rfl⟩
  refine ⟨ofName_eq_ok_iff_lowered, ofName_eq_ok_iff_lowered, fun _ => ascii_of_ofName, ?_, ?_,
    fun _ => refused, ?_, fun _ _ _ => eq_of_refusal_eq⟩
  · intro t same o
    rw [ofName_eq_ok_iff_lowered, ofName_eq_ok_iff_lowered, lowered_eq_of_sameLetters same]
  · constructor
    · intro h o read
      rw [read] at h
      cases h
    · intro none
      cases h : ofName s with
      | ok o => exact absurd h (none o)
      | error e => rw [(refused h).1]
  · intro t e e' hs ht same
    rw [(refused hs).2, (refused ht).2] at same
    exact eq_of_refusal_eq same

/-- A control character is not taken for the text of its escape. -/
theorem ofName_lossless_escape :
    ofName "\x1b" = .error (.unknownOrder "\x1b") ∧
      ofName "\\u\x7b1b\x7d" = .error (.unknownOrder "\\u\x7b1b\x7d") ∧
      (Error.unknownOrder "\x1b").message ≠ (Error.unknownOrder "\\u\x7b1b\x7d").message := by
  obtain ⟨-, -, -, -, -, -, apart, -⟩ := ofName_lossless "\x1b"
  have control : ofName "\x1b" = .error (.unknownOrder "\x1b") := by decide +kernel
  have text : ofName "\\u\x7b1b\x7d" = .error (.unknownOrder "\\u\x7b1b\x7d") := by
    decide +kernel
  exact ⟨control, text, fun same => absurd (apart _ _ _ control text same) (by decide)⟩

end Exploration.Order
