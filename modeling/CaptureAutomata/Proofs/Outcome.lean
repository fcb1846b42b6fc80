/-
Computations that end in a value or in an error:

* `bind_eq_ok`, `map_eq_ok`, `mapError_eq_ok`: what has succeeded if a computation made of parts has;
* `bind_eq_error`, `mapError_eq_error`: what has failed if such a computation has;
* `exists_ok_iff`: a computation that does not fail succeeds;
* `exists_ok_of_decide`: what is decided by trying out a computation holds of the value that it ends in;
* `exists_mapM`, `exists_mem_of_mapM`: a list is mapped if each member is, and keeps them all.
-/
import Mathlib

namespace CaptureAutomata

variable {α β ε ε' : Type}

lemma bind_eq_ok {x : Except ε α} {f : α → Except ε β} {b : β} :
    x >>= f = .ok b ↔ ∃ a, x = .ok a ∧ f a = .ok b := by
  cases x with
  | error e => simp [bind, Except.bind]
  | ok a => simp [bind, Except.bind]

lemma map_eq_ok {x : Except ε α} {f : α → β} {b : β} :
    f <$> x = .ok b ↔ ∃ a, x = .ok a ∧ f a = b := by
  cases x with
  | error e => simp [Functor.map, Except.map]
  | ok a => simp [Functor.map, Except.map]

lemma mapError_eq_ok {x : Except ε α} {f : ε → ε'} {a : α} :
    x.mapError f = .ok a ↔ x = .ok a := by
  cases x with
  | error e => simp [Except.mapError]
  | ok a => simp [Except.mapError]

lemma bind_eq_error {x : Except ε α} {f : α → Except ε β} {e : ε} :
    x >>= f = .error e ↔ x = .error e ∨ ∃ a, x = .ok a ∧ f a = .error e := by
  cases x with
  | error d => simp [bind, Except.bind]
  | ok a => simp [bind, Except.bind]

lemma mapError_eq_error {x : Except ε α} {f : ε → ε'} {e : ε'} :
    x.mapError f = .error e ↔ ∃ d, x = .error d ∧ f d = e := by
  cases x with
  | error d => simp [Except.mapError]
  | ok a => simp [Except.mapError]

/-- A computation that does not fail succeeds. -/
lemma exists_ok_iff {x : Except ε α} : (∃ a, x = .ok a) ↔ ∀ e, x ≠ .error e := by
  cases x with
  | error e => simp
  | ok a => simp

/-- What is decided by trying out a computation holds of the value that it ends in. -/
lemma exists_ok_of_decide {x : Except ε α} {P : α → Prop} [DecidablePred P]
    (h : x.toOption.any (fun a => decide (P a)) = true) : ∃ a, x = .ok a ∧ P a := by
  cases x with
  | error e => simp [Except.toOption] at h
  | ok a => exact ⟨a, rfl, by simpa [Except.toOption] using h⟩

variable {f : α → Except ε β}

/-- A list can be mapped if each of its members can. -/
lemma exists_mapM {l : List α} (h : ∀ a ∈ l, ∃ b, f a = .ok b) : ∃ l', l.mapM f = .ok l' := by
  induction l with
  | nil => exact ⟨[], rfl⟩
  | cons a l ih =>
      obtain ⟨b, hb⟩ := h a (.head _)
      obtain ⟨l', hl⟩ := ih fun c hc => h c (.tail _ hc)
      exact ⟨b :: l', by rw [List.mapM_cons, hb, hl]; rfl⟩

/-- Each member of a list that could be mapped is mapped to a member of the result. -/
lemma exists_mem_of_mapM {l : List α} {l' : List β} (h : l.mapM f = .ok l') :
    ∀ a ∈ l, ∃ b ∈ l', f a = .ok b := by
  induction l generalizing l' with
  | nil => simp
  | cons a l ih =>
      rw [List.mapM_cons, bind_eq_ok] at h
      obtain ⟨b, hb, h⟩ := h
      obtain ⟨bs, hbs, h⟩ := bind_eq_ok.1 h
      cases h
      intro c hc
      rcases List.mem_cons.1 hc with rfl | hc
      · exact ⟨b, .head _, hb⟩
      · obtain ⟨d, hd, hcd⟩ := ih hbs c hc
        exact ⟨d, .tail _ hd, hcd⟩

/-- Each member of the result is what a member of the list was mapped to. -/
lemma exists_of_mem_mapM {l : List α} {l' : List β} (h : l.mapM f = .ok l') :
    ∀ b ∈ l', ∃ a ∈ l, f a = .ok b := by
  induction l generalizing l' with
  | nil =>
      cases h
      simp
  | cons a l ih =>
      rw [List.mapM_cons, bind_eq_ok] at h
      obtain ⟨b, hb, h⟩ := h
      obtain ⟨bs, hbs, h⟩ := bind_eq_ok.1 h
      cases h
      intro c hc
      rcases List.mem_cons.1 hc with rfl | hc
      · exact ⟨a, .head _, hb⟩
      · obtain ⟨d, hd, hdc⟩ := ih hbs c hc
        exact ⟨d, .tail _ hd, hdc⟩

end CaptureAutomata
