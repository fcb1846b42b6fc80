/-
Keys, and finite sets and maps on them:

* `Key`: a type whose values `compare` puts in one line, two of them comparing equal only when
  they are the same value;
* `KeySet` and `KeyMap`: finite sets and maps that list their contents by ascending key and are
  equal as soon as they have the same contents;
* the instance `Key (KeySet α)`: sets of keys are keys, compared as their ascending lists;
* `KeySet.newcomers`: the members of a list whose keys a set does not hold yet, each key once;
* `KeySet.countP_notMem_newcomers` and `KeySet.size_insertMany_newcomers`: how many keys are
  missing before and after they have joined the set, the reason why searches end.

The modules that run import no more than the standard library, which does not have the keyword `lemma`:
what their definitions rest on is called `theorem` there, and all else is proved elsewhere.
-/
import Std.Data.ExtTreeMap
import Std.Data.ExtTreeSet

namespace CaptureAutomata

/-- A type that can name states, symbols and tags: `compare` is a linear order on it. -/
class Key (α : Type) extends Ord α where
  /-- The comparison is transitive and turns around when its sides are exchanged. -/
  [transOrd : Std.TransOrd α]
  /-- Only a value itself compares equal to it. -/
  [lawfulEqOrd : Std.LawfulEqOrd α]

attribute [instance] Key.transOrd Key.lawfulEqOrd

/-- A finite set, listed in ascending order. -/
abbrev KeySet (α : Type) [Key α] : Type := Std.ExtTreeSet α

/-- A finite map, listed by ascending key. -/
abbrev KeyMap (α β : Type) [Key α] : Type := Std.ExtTreeMap α β

variable {α : Type}

/-- Two keys are the same exactly when they compare equal. -/
theorem Key.compare_eq_iff [Key α] {a b : α} : compare a b = .eq ↔ a = b :=
  Std.LawfulEqCmp.compare_eq_iff_eq

/-- Equality of keys is decided by comparing them. -/
instance (priority := low) [Key α] : DecidableEq α :=
  fun _ _ => decidable_of_iff _ Key.compare_eq_iff

/-! ### Kinds of keys -/

instance : Key Nat where

instance : Key Int where

instance : Key Char where

instance : Key String where

/-- The missing value comes before every other. -/
instance [Key α] : Key (Option α) where

/-- Sets are compared as their ascending lists, so a list comes before its extensions. -/
instance [Key α] : Ord (KeySet α) where
  compare s t := compare s.toList t.toList

namespace KeySet

variable [Key α]

theorem toList_injective {s t : KeySet α} (h : s.toList = t.toList) : s = t :=
  Std.ExtTreeSet.ext_mem fun k => by simp [← Std.ExtTreeSet.mem_toList, h]

/-- A larger set misses no more members of a list. -/
theorem countP_notMem_le {s t : KeySet α} (h : ∀ a ∈ s, a ∈ t) (l : List α) :
    l.countP (· ∉ t) ≤ l.countP (· ∉ s) :=
  List.countP_mono_left fun a _ ha => by
    simp only [decide_eq_true_eq] at ha ⊢
    exact fun hs => ha (h a hs)

/-- A set that grows by a member of a list misses fewer members of the list. -/
theorem countP_notMem_insert_lt {s : KeySet α} {a : α} {l : List α} (hl : a ∈ l) (hs : a ∉ s) :
    l.countP (· ∉ s.insert a) < l.countP (· ∉ s) := by
  have hle : ∀ m : List α, m.countP (· ∉ s.insert a) ≤ m.countP (· ∉ s) :=
    countP_notMem_le fun b hb => by simp [hb]
  obtain ⟨l₁, l₂, rfl⟩ := List.append_of_mem hl
  have h₁ := hle l₁
  have h₂ := hle l₂
  rw [List.countP_append, List.countP_append, List.countP_cons_of_neg (by simp),
    List.countP_cons_of_pos (by simpa using hs)]
  omega

/-- A set within a list has no more members than the list. -/
theorem size_le_length {s : KeySet α} {l : List α} (h : ∀ a ∈ s, a ∈ l) : s.size ≤ l.length := by
  induction l generalizing s with
  | nil =>
    have : s = ∅ := Std.ExtTreeSet.eq_empty_iff_forall_not_mem.2 fun a ha => by simpa using h a ha
    simp [this]
  | cons b l ih =>
    have hs : ∀ a ∈ s.erase b, a ∈ l := fun a ha => by
      obtain ⟨hb, ha⟩ := Std.ExtTreeSet.mem_erase.1 ha
      rcases List.mem_cons.1 (h a ha) with rfl | ha
      · exact absurd (Key.compare_eq_iff.2 rfl) hb
      · exact ha
    have := ih hs
    have := Std.ExtTreeSet.size_le_size_erase (t := s) (k := b)
    simp only [List.length_cons]
    omega

/-! ### Newcomers -/

variable {β : Type} {key : β → α}

/-- The members of a list whose keys are not in the set, each key where it comes first. -/
def newcomers (key : β → α) (s : KeySet α) : List β → List β
  | [] => []
  | b :: l => if key b ∈ s then newcomers key s l else b :: newcomers key (s.insert (key b)) l

/-- Newcomers are members of the list whose keys are not in the set. -/
theorem of_mem_newcomers {s : KeySet α} {l : List β} {b : β} (h : b ∈ newcomers key s l) :
    b ∈ l ∧ key b ∉ s := by
  induction l generalizing s with
  | nil => cases h
  | cons c l ih =>
    rw [newcomers] at h
    split at h
    next => exact ⟨.tail _ (ih h).1, (ih h).2⟩
    next hc =>
      rcases List.mem_cons.1 h with rfl | h
      · exact ⟨.head _, hc⟩
      · exact ⟨.tail _ (ih h).1, fun hs => (ih h).2 (by simp [hs])⟩

/-- The keys of newcomers are the keys in the list that are not in the set. -/
theorem mem_map_newcomers {s : KeySet α} {l : List β} {a : α} :
    a ∈ (newcomers key s l).map key ↔ a ∈ l.map key ∧ a ∉ s := by
  constructor
  · intro h
    obtain ⟨b, hb, rfl⟩ := List.mem_map.1 h
    exact ⟨List.mem_map_of_mem (of_mem_newcomers hb).1, (of_mem_newcomers hb).2⟩
  · rintro ⟨h, hs⟩
    induction l generalizing s with
    | nil => cases h
    | cons c l ih =>
      rw [newcomers]
      rcases List.mem_cons.1 h with rfl | h
      · simp [hs]
      · split
        next => exact ih h hs
        next =>
          by_cases hc : key c = a
          · simp [hc]
          · exact .tail _ (ih h (by simp [hc, hs]))

/-- The set that newcomers have joined holds the keys of the list besides its own. -/
theorem mem_insertMany_newcomers {s : KeySet α} {l : List β} {a : α} :
    a ∈ s.insertMany ((newcomers key s l).map key) ↔ a ∈ s ∨ a ∈ l.map key := by
  rw [Std.ExtTreeSet.mem_insertMany_list, List.contains_iff_mem, mem_map_newcomers]
  by_cases h : a ∈ s <;> simp [h]

/-- Each newcomer adds one to the size of the set. -/
theorem size_insertMany_newcomers (s : KeySet α) (l : List β) :
    (s.insertMany ((newcomers key s l).map key)).size = s.size + (newcomers key s l).length := by
  induction l generalizing s with
  | nil => simp [newcomers]
  | cons b l ih =>
    rw [newcomers]
    split
    next => exact ih s
    next hb =>
      rw [List.map_cons, Std.ExtTreeSet.insertMany_cons, ih, Std.ExtTreeSet.size_insert,
        if_neg (by simpa using hb), List.length_cons]
      omega

/-- Each newcomer that is a member of a list leaves one less of its members missing. -/
theorem countP_notMem_newcomers {s : KeySet α} {l : List β} {all : List α}
    (h : ∀ b ∈ newcomers key s l, key b ∈ all) :
    all.countP (· ∉ s.insertMany ((newcomers key s l).map key)) + (newcomers key s l).length ≤
      all.countP (· ∉ s) := by
  induction l generalizing s with
  | nil => simp [newcomers]
  | cons b l ih =>
    rw [newcomers] at h ⊢
    split at h
    next hb => simpa only [if_pos hb] using ih h
    next hb =>
      rw [if_neg hb, List.map_cons, Std.ExtTreeSet.insertMany_cons, List.length_cons]
      have := ih fun c hc => h c (.tail _ hc)
      have := countP_notMem_insert_lt (h b (.head _)) hb
      omega

end KeySet

instance [Key α] : Key (KeySet α) where
  transOrd := inferInstanceAs (Std.TransCmp (compareOn fun s : KeySet α => s.toList))
  lawfulEqOrd :=
    { compare_self := @fun s => @Std.ReflCmp.compare_self (List α) compare _ s.toList
      eq_of_compare := fun h =>
        KeySet.toList_injective (@Std.LawfulEqCmp.eq_of_compare (List α) compare _ _ _ h) }

end CaptureAutomata
