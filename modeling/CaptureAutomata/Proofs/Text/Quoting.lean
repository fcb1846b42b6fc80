/-
Values are told by the texts in which they are written:

* `Text.eq_of_append_cons`: what stands before the first occurrence of a character, and behind it, is told;
* `Text.SelfDelimiting`: a way of writing single values such that each is told from what follows it, and none
  begins with a given character. `SelfDelimiting.eq_of_flatMap`: then a list of them that ends with this
  character is told, too;
* `Text.Writes`: the three ways in which a character is written between two marks;
  `Text.selfDelimiting_quoted`: they are self-delimiting;
* `LawfulQuoted`: the types whose values are told by their texts, which have no line breaks; integers,
  characters and strings are among them.
-/
import CaptureAutomata.Text.Quote
import Mathlib

namespace CaptureAutomata.Text

/-! ### Texts that end with a character -/

section Ends

variable {α : Type} {c : Char} {x x' r r' : List Char}

/-- Two texts that are the same have the same parts before and behind the first occurrence of a character. -/
lemma eq_of_append_cons (h : c ∉ x) (h' : c ∉ x') (heq : x ++ c :: r = x' ++ c :: r') :
    x = x' ∧ r = r' := by
  induction x generalizing x' with
  | nil =>
      cases x' with
      | nil => exact ⟨rfl, (List.cons.inj heq).2⟩
      | cons d x' => exact absurd (List.cons.inj heq).1 (List.ne_of_not_mem_cons h')
  | cons d x ih =>
      cases x' with
      | nil => exact absurd (List.cons.inj heq).1.symm (List.ne_of_not_mem_cons h)
      | cons d' x' =>
          obtain ⟨rfl, htail⟩ := List.cons.inj heq
          obtain ⟨rfl, hr⟩ := ih (List.not_mem_of_not_mem_cons h) (List.not_mem_of_not_mem_cons h') htail
          exact ⟨rfl, hr⟩

/-- Each value that `f` writes is told from what follows it, and none begins with `stop`. -/
structure SelfDelimiting (stop : Char) (f : α → List Char) : Prop where
  /-- A value and what follows it are told. -/
  eq_of_append : ∀ {a b r r'}, f a ++ r = f b ++ r' → a = b ∧ r = r'
  /-- No value begins with `stop`. -/
  ne_stop : ∀ a r r', f a ++ r ≠ stop :: r'

/-- Values that are written one behind the other and end with `stop` are told, and so is what follows. -/
lemma SelfDelimiting.eq_of_flatMap {f : α → List Char} (hf : SelfDelimiting c f) {l l' : List α}
    (h : l.flatMap f ++ c :: r = l'.flatMap f ++ c :: r') : l = l' ∧ r = r' := by
  induction l generalizing l' with
  | nil =>
      cases l' with
      | nil => exact ⟨rfl, (List.cons.inj h).2⟩
      | cons b l' =>
          rw [List.flatMap_cons, List.append_assoc] at h
          exact absurd h.symm (hf.ne_stop b _ _)
  | cons a l ih =>
      cases l' with
      | nil =>
          rw [List.flatMap_cons, List.append_assoc] at h
          exact absurd h (hf.ne_stop a _ _)
      | cons b l' =>
          rw [List.flatMap_cons, List.flatMap_cons, List.append_assoc, List.append_assoc] at h
          obtain ⟨rfl, htail⟩ := hf.eq_of_append h
          obtain ⟨rfl, hr⟩ := ih htail
          exact ⟨rfl, hr⟩

end Ends

/-! ### Hexadecimal digits -/

lemma digitChar_inj {a b : ℕ} (ha : a < 16) (hb : b < 16) (h : a.digitChar = b.digitChar) : a = b := by
  have hall : ∀ a < 16, ∀ b < 16, a.digitChar = b.digitChar → a = b := by decide
  exact hall a ha b hb h

/-- Hexadecimal digits are the characters of digits. -/
lemma exists_of_mem_hexDigits {n : ℕ} {c : Char} (h : c ∈ hexDigits n) : ∃ d : ℕ, c = d.digitChar := by
  induction n using Nat.strongRecOn with
  | ind n ih =>
      rw [hexDigits, Nat.toDigits_eq_if (by decide)] at h
      split at h
      next => exact ⟨n, List.mem_singleton.1 h⟩
      next hn =>
        rcases List.mem_append.1 h with h | h
        · exact ih (n / 16) (by omega) h
        · exact ⟨n % 16, List.mem_singleton.1 h⟩

/-- Numbers are told by their hexadecimal digits. -/
lemma hexDigits_inj {m n : ℕ} (h : hexDigits m = hexDigits n) : m = n := by
  induction m using Nat.strongRecOn generalizing n with
  | ind m ih =>
      rw [hexDigits, hexDigits, Nat.toDigits_eq_if (by decide),
        Nat.toDigits_eq_if (n := n) (by decide)] at h
      split at h <;> split at h
      next hm hn => exact digitChar_inj hm hn (List.singleton_inj.1 h)
      next => exact absurd (List.append_eq_singleton_iff.1 h.symm) (by simp [Nat.toDigits_ne_nil])
      next => exact absurd (List.append_eq_singleton_iff.1 h) (by simp [Nat.toDigits_ne_nil])
      next hm hn =>
        obtain ⟨hdiv, hmod⟩ := List.append_inj' h rfl
        have hdiv := ih (m / 16) (by omega) hdiv
        have hmod := digitChar_inj (by omega) (by omega) (List.singleton_inj.1 hmod)
        omega

/-! ### Characters between two marks -/

/-- The characters with an escape of their own, and the letter of the escape. -/
def escapes (mark : Char) : List (Char × Char) :=
  [('\x00', '0'), ('\t', 't'), ('\n', 'n'), ('\r', 'r'), ('\\', '\\'), (mark, mark)]

/-- Characters are told by the letters of their escapes, which are neither `u` nor line breaks. -/
lemma of_mem_escapes {mark : Char} (hmark : mark = '\'' ∨ mark = '"') {p : Char × Char}
    (h : p ∈ escapes mark) :
    p.2 ≠ 'u' ∧ p.2 ≠ '\n' ∧ ∀ q ∈ escapes mark, p.2 = q.2 → p.1 = q.1 := by
  rcases hmark with rfl | rfl
  · revert p
    decide
  · revert p
    decide

/-- The ways in which a character is written between two marks. -/
inductive Writes (mark : Char) : Char → List Char → Prop
  /-- As it is. -/
  | plain {c : Char} (hbackslash : c ≠ '\\') (hmark : c ≠ mark) (hline : c ≠ '\n') : Writes mark c [c]
  /-- By its escape. -/
  | escape {c e : Char} (h : (c, e) ∈ escapes mark) : Writes mark c ['\\', e]
  /-- By its code point. -/
  | code {c : Char} : Writes mark c ('\\' :: 'u' :: '\x7b' :: (hexDigits c.toNat ++ ['\x7d']))

/-- A character is written in one of these ways. -/
lemma writes_quoted (mark c : Char) : Writes mark c (quoted mark c) := by
  rw [quoted]
  split_ifs with hnul htab hline hreturn hself
  · exact .escape (by simp [escapes, hnul])
  · exact .escape (by simp [escapes, htab])
  · exact .escape (by simp [escapes, hline])
  · exact .escape (by simp [escapes, hreturn])
  · refine .escape ?_
    rcases hself with rfl | rfl <;> simp [escapes]
  · obtain ⟨hbackslash, hmark⟩ := not_or.1 hself
    exact .plain hbackslash hmark hline
  · exact .code

/-- A character between two marks is told from what follows it. -/
lemma Writes.eq_of_append {mark c d : Char} {x y r r' : List Char} (hmark : mark = '\'' ∨ mark = '"')
    (hx : Writes mark c x) (hy : Writes mark d y) (h : x ++ r = y ++ r') : c = d ∧ r = r' := by
  cases hx with
  | plain hbackslash =>
      cases hy with
      | plain => exact List.cons.inj h
      | escape => exact absurd (List.cons.inj h).1 hbackslash
      | code => exact absurd (List.cons.inj h).1 hbackslash
  | escape he =>
      cases hy with
      | plain hbackslash => exact absurd (List.cons.inj h).1.symm hbackslash
      | escape he' =>
          obtain ⟨rfl, hr⟩ := List.cons.inj (List.cons.inj h).2
          exact ⟨(of_mem_escapes hmark he).2.2 _ he' rfl, hr⟩
      | code => exact absurd (List.cons.inj (List.cons.inj h).2).1 (of_mem_escapes hmark he).1
  | code =>
      cases hy with
      | plain hbackslash => exact absurd (List.cons.inj h).1.symm hbackslash
      | escape he =>
          exact absurd (List.cons.inj (List.cons.inj h).2).1.symm (of_mem_escapes hmark he).1
      | code =>
          have hbrace : ∀ n, '\x7d' ∉ hexDigits n := fun n hmem => by
            obtain ⟨d, hd⟩ := exists_of_mem_hexDigits hmem
            exact Nat.digitChar_ne '\x7d' (by decide) hd.symm
          simp only [List.cons_append, List.append_assoc, List.nil_append, List.cons.injEq,
            true_and] at h
          obtain ⟨hdigits, hr⟩ := eq_of_append_cons (hbrace _) (hbrace _) h
          exact ⟨Char.toNat_inj.1 (hexDigits_inj hdigits), hr⟩

/-- A character between two marks does not begin with a mark. -/
lemma Writes.ne_mark {mark c : Char} {x r r' : List Char} (hmark : mark ≠ '\\') (hx : Writes mark c x) :
    x ++ r ≠ mark :: r' := by
  intro h
  cases hx with
  | plain _ hc => exact hc (List.cons.inj h).1
  | escape => exact hmark (List.cons.inj h).1.symm
  | code => exact hmark (List.cons.inj h).1.symm

/-- A character between two marks is written without a line break. -/
lemma Writes.newline_notMem {mark c : Char} {x : List Char} (hmark : mark = '\'' ∨ mark = '"')
    (hx : Writes mark c x) : '\n' ∉ x := by
  cases hx with
  | plain _ _ hline => simpa using hline.symm
  | escape he => simpa using (of_mem_escapes hmark he).2.1.symm
  | code =>
      have hdigits : '\n' ∉ hexDigits c.toNat := fun hmem => by
        obtain ⟨d, hd⟩ := exists_of_mem_hexDigits hmem
        exact Nat.digitChar_ne '\n' (by decide) hd.symm
      simpa using hdigits

/-- Between two single or two double quotes, characters are told from what follows them. -/
lemma selfDelimiting_quoted {mark : Char} (hmark : mark = '\'' ∨ mark = '"') :
    SelfDelimiting mark (quoted mark) where
  eq_of_append h := (writes_quoted mark _).eq_of_append hmark (writes_quoted mark _) h
  ne_stop c r r' := (writes_quoted mark c).ne_mark (by rcases hmark with rfl | rfl <;> decide)

end CaptureAutomata.Text

namespace CaptureAutomata

open Text

/-! ### Types whose values are told by their texts -/

/-- Values are told by their texts, which stand on one line. -/
class LawfulQuoted (α : Type) [Quoted α] : Prop where
  /-- Only one value has a given text. -/
  quote_inj : ∀ {a b : α}, quote a = quote b → a = b
  /-- The text of a value has no line break. -/
  newline_notMem : ∀ a : α, '\n' ∉ (quote a).toList

/-- Numbers are told by their digits, among which there is no other character. -/
lemma notMem_toString {n : ℕ} {c : Char} (hc : c.isDigit = false) : c ∉ (toString n).toList := by
  rw [Nat.toString_eq_ofList_toDigits, String.toList_ofList]
  intro h
  simp [Nat.isDigit_of_mem_toDigits (by decide) (by decide) h] at hc

@[simp] lemma space_notMem_toString (n : ℕ) : ' ' ∉ (toString n).toList :=
  notMem_toString (by decide)

@[simp] lemma newline_notMem_toString (n : ℕ) : '\n' ∉ (toString n).toList :=
  notMem_toString (by decide)

lemma toList_toString_inj {m n : ℕ} (h : (toString m).toList = (toString n).toList) : m = n :=
  Nat.repr_inj.1 (String.toList_inj.1 h)

instance : LawfulQuoted Int where
  quote_inj h := Int.repr_inj.1 h
  newline_notMem n := by
    cases n with
    | ofNat n => exact newline_notMem_toString n
    | negSucc n =>
        show '\n' ∉ ("-" ++ toString (n + 1)).toList
        rw [String.toList_append, List.mem_append, not_or]
        exact ⟨by decide, newline_notMem_toString (n + 1)⟩

instance : LawfulQuoted Char where
  quote_inj {a b} h := by
    have h : '\'' :: quoted '\'' a ++ ['\''] = '\'' :: quoted '\'' b ++ ['\''] := String.ofList_inj.1 h
    exact ((selfDelimiting_quoted (Or.inl rfl)).eq_of_append (List.cons.inj h).2).1
  newline_notMem a := by
    show '\n' ∉ (String.ofList _).toList
    simp [(writes_quoted '\'' a).newline_notMem (Or.inl rfl)]

instance : LawfulQuoted String where
  quote_inj {s t} h := by
    have h : '"' :: s.toList.flatMap (quoted '"') ++ ['"'] = '"' :: t.toList.flatMap (quoted '"') ++ ['"'] :=
      String.ofList_inj.1 h
    exact String.toList_inj.1 ((selfDelimiting_quoted (Or.inr rfl)).eq_of_flatMap (List.cons.inj h).2).1
  newline_notMem s := by
    show '\n' ∉ (String.ofList _).toList
    simp [(writes_quoted '"' _).newline_notMem (Or.inr rfl)]

end CaptureAutomata
