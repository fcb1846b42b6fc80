/-
The ways that are built through the automaton of a pattern:

* `Fragment`: a way from a state to a new one, for an atom;
* `Chain`: a way from a state to one that later items may lead back to, for a branch;
* `Bundle`: ways from one state to the ends of several branches;
* `Passage`: a way to whose start nothing leads back, for all that stands in a group;
* `Pattern.bundle_assemble`: assembling a pattern builds such ways, on which exactly those words are
  read that `Pattern.trips` and `Pattern.walks` describe.

Each kind of way says that the assembly grows, that every word can be read, and that labels can be
extended without allowing for any other word.
-/
import CaptureAutomata.Pattern.Grammar
import CaptureAutomata.Proofs.Pattern.Links

namespace CaptureAutomata

open scoped Computability

/-- No group has the name of the main one: names do not start with a digit, and numbers start at
one. -/
lemma Header.WellFormed.name_ne_mainGroup {x : Header} (h : x.WellFormed) {n : Nat} (hn : 0 < n) :
    x.name n ≠ mainGroup := by
  have hname : ∀ {name : String}, IsName name.toList → name ≠ mainGroup := by
    rintro _ ⟨⟨c, hc, hstart⟩, -⟩ rfl
    obtain rfl : '0' = c := by simpa [mainGroup] using hc
    simp [startsName] at hstart
  cases x with
  | anonymous =>
      intro hzero
      have hrepr : Nat.repr n = Nat.repr 0 := hzero
      exact hn.ne' (Nat.repr_injective hrepr)
  | angled name => exact hname h
  | quoted name => exact hname h

namespace Assembly

variable {a b c d : Assembly} {s e j r : Nat} {A : Language Char}

/-! ### Fragments -/

/-- From `a` to `b` a way from `s` to the new state `e` was built on which the words of `A` are
read. -/
structure Fragment (a b : Assembly) (s e : Nat) (A : Language Char) : Prop where
  /-- Nothing was lost. -/
  grows : a.Grows b
  /-- The way ends in a state. -/
  inner : b.Inner e
  /-- All words are read. -/
  reads : ∀ m, b.Within m → m.Reads s A e
  /-- No other words are read. -/
  labels : ∀ L P, Labels a L → L s * A ≤ P → ∃ L', Relabels a b L L' ∧ L' e = P

/-- A link to a new state is a fragment. -/
lemma Link.fragment (h : Link a.withState b s a.count A) (ha : a.Valid) (hs : a.Inner s) :
    Fragment a b s a.count A where
  grows := (Grows.refl.state).trans h.grows
  inner := ha.inner_withState.of_grows h.grows ha.withState
  reads := h.reads
  labels L P hL hle := by
    obtain ⟨L₁, h₁, hnew⟩ := hL.withState ha P
    obtain ⟨L₂, h₂⟩ := h.labels L₁ h₁.labels (by rwa [hnew, h₁.agree s hs.2])
    refine ⟨L₂, h₁.trans h₂ (by rw [ha.count_withState]; omega), ?_⟩
    rw [h₂.agree _ ha.inner_withState.2, hnew]

/-! ### Chains -/

/-- From `a` to `b` a way from `s` to `e` was built. If `Y` is read on the trips back to `e`, then
`T Y` is read on the trips back to `s`, and `W Y` on the way to `e` after the last of them. -/
structure Chain (a b : Assembly) (s e : Nat) (T W : Language Char → Language Char) : Prop where
  /-- Nothing was lost. -/
  grows : a.Grows b
  /-- The way ends in a state. -/
  inner : b.Inner e
  /-- All words are read. -/
  reads : ∀ m Y, b.Within m → m.Reads e Y e → m.Reads s (T Y) s ∧ m.Reads s (W Y) e
  /-- No other words are read. -/
  labels : ∀ L Y, Labels a L → L s * T Y ≤ L s →
    ∃ L', Relabels a b L L' ∧ L' e = L s * W Y ∧ L' e * Y ≤ L' e

/-- Where nothing is built, trips back to the end are trips back to the start. -/
lemma chain_refl (hs : a.Inner s) : Chain a a s s id fun _ => 1 where
  grows := .refl
  inner := hs
  reads _ _ _ hY := ⟨hY, Nfa.reads_one⟩
  labels L _ hL hle := ⟨L, .refl hL, (mul_one _).symm, hle⟩

/-- Chains are put behind each other. -/
lemma Chain.comp {T T' W W' : Language Char → Language Char} (h : Chain a b s j T W)
    (k : Chain b c j r T' W') (ha : a.Valid) :
    Chain a c s r (fun Y => T (T' Y)) fun Y => W (T' Y) * W' Y where
  grows := h.grows.trans k.grows
  inner := k.inner
  reads m Y hm hY := by
    obtain ⟨htrips, hwalks⟩ := k.reads m Y hm hY
    obtain ⟨htrips', hwalks'⟩ := h.reads m _ (hm.of_grows k.grows) htrips
    exact ⟨htrips', hwalks'.mul hwalks⟩
  labels L Y hL hle := by
    obtain ⟨L₁, h₁, hj, htrips⟩ := h.labels L _ hL hle
    obtain ⟨L₂, h₂, hr, hY⟩ := k.labels L₁ Y h₁.labels htrips
    exact ⟨L₂, h₁.trans h₂ (h.grows.count_le ha), by rw [hr, hj, mul_assoc], hY⟩

/-- A way is a chain if what is read on it may be followed by any number of trips back to its end. -/
lemma chain_of_kstar {T : Language Char → Language Char} {V : Language Char} (hgrows : a.Grows b)
    (hinner : b.Inner e)
    (hreads : ∀ m Y, b.Within m → m.Reads e Y e → m.Reads s (T Y) s ∧ m.Reads s V e)
    (hlabels : ∀ L Y, Labels a L → L s * T Y ≤ L s →
      ∃ L', Relabels a b L L' ∧ L' e = L s * V * Y∗) :
    Chain a b s e T fun Y => V * Y∗ where
  grows := hgrows
  inner := hinner
  reads m Y hm hY := ⟨(hreads m Y hm hY).1, (hreads m Y hm hY).2.mul hY.kstar⟩
  labels L Y hL hle := by
    obtain ⟨L', h', he⟩ := hlabels L Y hL hle
    refine ⟨L', h', by rw [he, mul_assoc], ?_⟩
    rw [he, mul_assoc]
    gcongr
    exact kstar_mul_le_kstar

/-- An atom that is read once makes a chain. -/
lemma Fragment.chain_once (h : Fragment a b s e A) : Chain a b s e (fun _ => 0) fun Y => A * Y∗ := by
  refine chain_of_kstar h.grows h.inner (fun m Y hm _ => ⟨Nfa.reads_zero, h.reads m hm⟩)
    fun L Y hL _ => h.labels L _ hL le_mul_kstar

/-- An atom that may be passed by makes a chain. -/
lemma Fragment.chain_optional (h : Fragment a b s e A) (ha : a.Valid) (hs : a.Inner s) :
    Chain a (b.withEdge s none e) s e (fun _ => 0) fun Y => (1 + A) * Y∗ := by
  have hsb := hs.of_grows h.grows ha
  have hedge : Link b (b.withEdge s none e) s e 1 := link_withEdge hsb.2 h.inner
  refine chain_of_kstar (h.grows.trans hedge.grows)
    (h.inner.of_grows hedge.grows (h.grows.valid ha))
    (fun m Y hm _ => ⟨Nfa.reads_zero, ?_⟩) fun L Y hL _ => ?_
  · exact (hedge.reads m hm).add (h.reads m (hm.of_grows hedge.grows))
  · have hA : L s * A ≤ L s * (1 + A) * Y∗ :=
      (mul_le_mul_right le_sup_right _).trans le_mul_kstar
    have hone : L s * 1 ≤ L s * (1 + A) * Y∗ :=
      (mul_le_mul_right le_sup_left _).trans le_mul_kstar
    obtain ⟨L', h', he⟩ := h.labels L _ hL hA
    refine ⟨L', ⟨h'.agree, h'.labels.withEdge ?_⟩, he⟩
    rw [he, h'.agree s hs.2]
    exact hone

/-- An atom that may be read again makes a chain. -/
lemma Fragment.chain_oneOrMore (h : Fragment a b s e A) (ha : a.Valid) (hs : a.Inner s) :
    Chain a (b.withEdge e none s) s e (fun Y => A * Y∗) fun Y => A * Y∗ := by
  have hsb := hs.of_grows h.grows ha
  have hedge : Link b (b.withEdge e none s) e s 1 := link_withEdge h.inner.2 hsb
  refine chain_of_kstar (h.grows.trans hedge.grows)
    (h.inner.of_grows hedge.grows (h.grows.valid ha)) (fun m Y hm hY => ?_) fun L Y hL hle => ?_
  · have hA := h.reads m (hm.of_grows hedge.grows)
    refine ⟨?_, hA⟩
    rw [← mul_one (A * Y∗)]
    exact (hA.mul hY.kstar).mul (hedge.reads m hm)
  · obtain ⟨L', h', he⟩ := h.labels L _ hL (le_mul_kstar (B := Y))
    have hround : L s * A * Y∗ ≤ L s := by rwa [mul_assoc]
    refine ⟨L', ⟨h'.agree, h'.labels.withEdge ?_⟩, he⟩
    rw [he, h'.agree s hs.2]
    exact (mul_one _).le.trans hround

/-- An atom that may be read any number of times, with a new state behind it, makes a chain. -/
lemma Fragment.chain_zeroOrMore (h : Fragment a b s e A) (ha : a.Valid) (hs : a.Inner s) :
    Chain a (((b.withState.withEdge e none s).withEdge s none b.count).withEdge e none b.count) s
      b.count (fun _ => A) fun Y => 1 * Y∗ := by
  have hb := h.grows.valid ha
  have hv := hb.withState
  have hnew : b.Grows b.withState := .state .refl
  -- the three transitions between the states that are there then
  have hs₁ := (hs.of_grows h.grows ha).of_grows hnew hb
  have he₁ := h.inner.of_grows hnew hb
  have hback : Link b.withState (b.withState.withEdge e none s) e s 1 := link_withEdge he₁.2 hs₁
  have hr₂ := hb.inner_withState.of_grows hback.grows hv
  have hpass : Link _ ((b.withState.withEdge e none s).withEdge s none b.count) s b.count 1 :=
    link_withEdge (hs₁.of_grows hback.grows hv).2 hr₂
  have hv₂ := hback.grows.valid hv
  have hleave : Link _
      (((b.withState.withEdge e none s).withEdge s none b.count).withEdge e none b.count) e b.count
      1 :=
    link_withEdge ((he₁.of_grows hback.grows hv).of_grows hpass.grows hv₂).2
      (hr₂.of_grows hpass.grows hv₂)
  have hgrows := (hback.grows.trans hpass.grows).trans hleave.grows
  refine chain_of_kstar ((h.grows.trans hnew).trans hgrows)
    (hb.inner_withState.of_grows hgrows hv) (fun m Y hm _ => ?_) fun L Y hL hle => ?_
  · have hA := h.reads m (hm.of_grows (hnew.trans hgrows))
    have hback' := hback.reads m (hm.of_grows (hpass.grows.trans hleave.grows))
    refine ⟨?_, hpass.reads m (hm.of_grows hleave.grows)⟩
    rw [← mul_one A]
    exact hA.mul hback'
  · obtain ⟨L₁, h₁, he⟩ := h.labels L _ hL le_rfl
    obtain ⟨L₂, h₂, hr⟩ := h₁.labels.withState hb (L s * 1 * Y∗)
    have hs₂ : L₂ s = L s := by rw [h₂.agree s (hs.of_grows h.grows ha).2, h₁.agree s hs.2]
    have he₂ : L₂ e = L s * A := by rw [h₂.agree e h.inner.2, he]
    have hone : L s ≤ L s * 1 * Y∗ := (mul_one (L s)).ge.trans le_mul_kstar
    have hedges : Labels
        (((b.withState.withEdge e none s).withEdge s none b.count).withEdge e none b.count) L₂ := by
      refine ((h₂.labels.withEdge ?_).withEdge ?_).withEdge ?_
      · rw [he₂, hs₂]
        exact (mul_one _).le.trans hle
      · rw [hs₂, hr]
        exact (mul_one _).le.trans hone
      · rw [he₂, hr]
        exact (mul_one _).le.trans (hle.trans hone)
    exact ⟨L₂, (h₁.trans ⟨h₂.agree, hedges⟩ (h.grows.count_le ha)), hr⟩

/-- An atom and its quantifier make a chain. -/
lemma Fragment.chain (h : Fragment a b s e A) {q : Quantifier} (ha : a.Valid) (hs : a.Inner s)
    (hq : Makes (q.assemble s e) b r c) :
    Chain a c s r (q.trips A) fun Y => q.passes A * Y∗ := by
  cases q with
  | once =>
      obtain ⟨rfl, rfl⟩ := makes_pure.1 hq
      exact h.chain_once
  | optional =>
      obtain ⟨_, d, h₁, hq⟩ := makes_bind.1 hq
      obtain rfl := makes_connect.1 h₁
      obtain ⟨rfl, rfl⟩ := makes_pure.1 hq
      exact h.chain_optional ha hs
  | oneOrMore =>
      obtain ⟨_, d, h₁, hq⟩ := makes_bind.1 hq
      obtain rfl := makes_connect.1 h₁
      obtain ⟨rfl, rfl⟩ := makes_pure.1 hq
      exact h.chain_oneOrMore ha hs
  | zeroOrMore =>
      obtain ⟨rfl, rfl⟩ := makes_zeroOrMore hq
      exact h.chain_zeroOrMore ha hs

/-! ### Bundles -/

/-- From `a` to `b` ways from `s` to all of `stops` were built. `T` is read on the trips back to `s`,
and `W` on the ways to the stops after the last of them. -/
structure Bundle (a b : Assembly) (s : Nat) (stops : List Nat) (T W : Language Char) : Prop where
  /-- Nothing was lost. -/
  grows : a.Grows b
  /-- The ways end in states. -/
  inner : ∀ e ∈ stops, b.Inner e
  /-- All words are read. -/
  reads : ∀ m, b.Within m → m.Reads s T s ∧ ∀ w ∈ W, ∃ e ∈ stops, m.Run s w e
  /-- No other words are read. -/
  labels : ∀ L, Labels a L → L s * T ≤ L s →
    ∃ L', Relabels a b L L' ∧ ∀ e ∈ stops, L' e ≤ L s * W

/-- One branch, to whose end nothing leads back, makes a bundle. -/
lemma Chain.bundle {T W : Language Char → Language Char} (h : Chain a b s e T W) :
    Bundle a b s [e] (T 0) (W 0) where
  grows := h.grows
  inner _ he := List.mem_singleton.1 he ▸ h.inner
  reads m hm := by
    obtain ⟨htrips, hwalks⟩ := h.reads m 0 hm Nfa.reads_zero
    exact ⟨htrips, fun w hw => ⟨e, List.mem_singleton.2 rfl, hwalks w hw⟩⟩
  labels L hL hle := by
    obtain ⟨L', h', he, -⟩ := h.labels L 0 hL hle
    exact ⟨L', h', fun e he' => by rw [List.mem_singleton.1 he', he]⟩

/-- One more branch from the same state makes a larger bundle. -/
lemma Bundle.append {T W : Language Char} {T' W' : Language Char → Language Char} {stops : List Nat}
    (h : Bundle a b s stops T W) (k : Chain b c s e T' W') (ha : a.Valid) (hs : a.Inner s) :
    Bundle a c s (stops ++ [e]) (T + T' 0) (W + W' 0) where
  grows := h.grows.trans k.grows
  inner j hj := by
    rcases List.mem_append.1 hj with hj | hj
    · exact (h.inner j hj).of_grows k.grows (h.grows.valid ha)
    · exact List.mem_singleton.1 hj ▸ k.inner
  reads m hm := by
    obtain ⟨htrips, hwalks⟩ := h.reads m (hm.of_grows k.grows)
    obtain ⟨htrips', hwalks'⟩ := k.reads m 0 hm Nfa.reads_zero
    refine ⟨htrips.add htrips', fun w hw => ?_⟩
    rcases hw with hw | hw
    · obtain ⟨j, hj, hrun⟩ := hwalks w hw
      exact ⟨j, List.mem_append_left _ hj, hrun⟩
    · exact ⟨e, List.mem_append_right _ (List.mem_singleton.2 rfl), hwalks' w hw⟩
  labels L hL hle := by
    rw [mul_add] at hle
    obtain ⟨hT, hT'⟩ := add_le_iff.1 hle
    obtain ⟨L₁, h₁, hstops⟩ := h.labels L hL hT
    have hs₁ : L₁ s = L s := h₁.agree s hs.2
    obtain ⟨L₂, h₂, he, -⟩ := k.labels L₁ 0 h₁.labels (by rwa [hs₁])
    refine ⟨L₂, h₁.trans h₂ (h.grows.count_le ha), fun j hj => ?_⟩
    rw [mul_add]
    rcases List.mem_append.1 hj with hj | hj
    · rw [h₂.agree j (h.inner j hj).2]
      exact (hstops j hj).trans le_sup_left
    · rw [List.mem_singleton.1 hj, he, hs₁]
      exact le_sup_right

/-- What transitions to one state from several others do. -/
lemma makes_forM_connect {stops : List Nat} {u : Unit} (hb : b.Valid) (hstops : ∀ e ∈ stops, b.Inner e)
    (hr : b.Inner r) (h : Makes (stops.forM fun e => connect e none r) b u c) :
    b.Grows c ∧ (∀ e ∈ stops, c.HasEdge e none r) ∧
      ∀ L, Labels b L → (∀ e ∈ stops, L e ≤ L r) → Labels c L := by
  induction stops generalizing b with
  | nil =>
      obtain ⟨-, rfl⟩ := makes_pure.1 h
      exact ⟨.refl, by simp, fun L hL _ => hL⟩
  | cons e stops ih =>
      rw [List.forM_eq_forM, List.forM_cons, makes_bind] at h
      obtain ⟨_, d, h₁, h⟩ := h
      obtain rfl := makes_connect.1 h₁
      have hlink : Link b (b.withEdge e none r) e r 1 := link_withEdge (hstops e (.head _)).2 hr
      obtain ⟨hgrows, hedges, hlabels⟩ := ih (hlink.grows.valid hb)
        (fun j hj => (hstops j (.tail _ hj)).of_grows hlink.grows hb)
        (hr.of_grows hlink.grows hb) h
      refine ⟨hlink.grows.trans hgrows, fun j hj => ?_, fun L hL hle => ?_⟩
      · rcases List.mem_cons.1 hj with rfl | hj
        · exact hgrows.hasEdge (hasEdge_withEdge.2 (Or.inl ⟨rfl, rfl, rfl⟩))
        · exact hedges j hj
      · have hedge : L e * 1 ≤ L r := (mul_one _).le.trans (hle e (.head _))
        exact hlabels L (hL.withEdge hedge) fun j hj => hle j (.tail _ hj)

/-- Branches that are led to a new state make a bundle with one stop. -/
lemma Bundle.join_new {T W : Language Char} {stops : List Nat} {u : Unit}
    (h : Bundle a b s stops T W) (ha : a.Valid)
    (hc : Makes (stops.forM fun e => connect e none b.count) b.withState u c) :
    Bundle a c s [b.count] T W := by
  have hb := h.grows.valid ha
  have hnew : b.Grows b.withState := .state .refl
  obtain ⟨hgrows, hedges, hlabels⟩ := makes_forM_connect hb.withState
    (fun e he => (h.inner e he).of_grows hnew hb) hb.inner_withState hc
  refine ⟨(h.grows.trans hnew).trans hgrows, fun e he => ?_, fun m hm => ?_, fun L hL hle => ?_⟩
  · rw [List.mem_singleton.1 he]
    exact hb.inner_withState.of_grows hgrows hb.withState
  · obtain ⟨htrips, hwalks⟩ := h.reads m (hm.of_grows (hnew.trans hgrows))
    refine ⟨htrips, fun w hw => ⟨b.count, List.mem_singleton.2 rfl, ?_⟩⟩
    obtain ⟨e, he, hrun⟩ := hwalks w hw
    have hlast : m.Run e [] b.count := .silent (hm _ _ _ (hedges e he)) (.nil _)
    simpa using hrun.append hlast
  · obtain ⟨L₁, h₁, hstops⟩ := h.labels L hL hle
    obtain ⟨L₂, h₂, hr⟩ := h₁.labels.withState hb (L s * W)
    have hL₂ : Labels c L₂ := hlabels L₂ h₂.labels fun e he => by
      rw [h₂.agree e (h.inner e he).2, hr]
      exact hstops e he
    refine ⟨L₂, h₁.trans ⟨h₂.agree, hL₂⟩ (h.grows.count_le ha), fun e he => ?_⟩
    rw [List.mem_singleton.1 he, hr]

/-- Joined branches are a bundle with one stop. -/
lemma Bundle.join {T W : Language Char} {stops : List Nat} (h : Bundle a b s stops T W)
    (ha : a.Valid) (hr : Makes (join stops) b r c) : Bundle a c s [r] T W := by
  rcases stops with _ | ⟨e, _ | ⟨e', stops⟩⟩
  case cons.nil =>
    obtain ⟨rfl, rfl⟩ := makes_pure.1 hr
    exact h
  all_goals
    obtain ⟨_, d, h₁, hr⟩ := makes_bind.1 hr
    obtain ⟨rfl, rfl⟩ := makes_newState.1 h₁
    obtain ⟨_, d, h₂, hr⟩ := makes_bind.1 hr
    obtain ⟨rfl, rfl⟩ := makes_pure.1 hr
    exact h.join_new ha h₂

/-! ### Passages -/

/-- From `a` to `b` a way from `s` to `e` was built that never leads back to `s`. The words of `A` are
read on it. -/
structure Passage (a b : Assembly) (s e : Nat) (A : Language Char) : Prop where
  /-- Nothing was lost. -/
  grows : a.Grows b
  /-- The way ends in a state. -/
  inner : b.Inner e
  /-- All words are read. -/
  reads : ∀ m, b.Within m → m.Reads s A e
  /-- No other words are read. -/
  labels : ∀ L, Labels a L → ∃ L', Relabels a b L L' ∧ L' e ≤ L s * A

/-- A new state behind a transition is a state to start from. -/
lemma Valid.entry (ha : a.Valid) (hs : s < a.count) :
    (a.withState.withEdge s none a.count).Valid ∧
      (a.withState.withEdge s none a.count).Inner a.count := by
  have hnew : a.Grows a.withState := .state .refl
  have henter : a.withState.Grows (a.withState.withEdge s none a.count) :=
    .edge .refl (hs.trans_le (hnew.count_le ha)) ha.inner_withState
  exact ⟨henter.valid ha.withState, ha.inner_withState.of_grows henter ha.withState⟩

/-- A bundle with one stop is a passage from in front of it: any number of trips come first. -/
lemma Bundle.passage {T W : Language Char} {b : Assembly}
    (h : Bundle (a.withState.withEdge s none a.count) b a.count [e] T W) (ha : a.Valid)
    (hs : s < a.count) : Passage a b s e (T∗ * W) := by
  have hnew : a.Grows a.withState := .state .refl
  have henter : Link a.withState (a.withState.withEdge s none a.count) s a.count 1 :=
    link_withEdge (hs.trans_le (hnew.count_le ha)) ha.inner_withState
  have hin := hnew.trans henter.grows
  refine ⟨hin.trans h.grows, h.inner e (.head _), fun m hm => ?_, fun L hL => ?_⟩
  · obtain ⟨htrips, hwalks⟩ := h.reads m hm
    have hW : m.Reads a.count W e := fun w hw => by
      obtain ⟨j, hj, hrun⟩ := hwalks w hw
      exact List.mem_singleton.1 hj ▸ hrun
    have hway := (henter.reads m (hm.of_grows h.grows)).mul (htrips.kstar.mul hW)
    rwa [one_mul] at hway
  · obtain ⟨L₁, h₁, hentry⟩ := hL.withState ha (L s * T∗)
    have hs₁ : L₁ s = L s := h₁.agree s hs
    have hedge : L₁ s * 1 ≤ L₁ a.count := by
      rw [hentry, hs₁, mul_one]
      exact le_mul_kstar
    have htrips : L₁ a.count * T ≤ L₁ a.count := by
      rw [hentry, mul_assoc]
      gcongr
      exact kstar_mul_le_kstar
    obtain ⟨L₂, h₂, hstop⟩ := h.labels L₁ (h₁.labels.withEdge hedge) htrips
    refine ⟨L₂, Relabels.trans ⟨h₁.agree, h₁.labels.withEdge hedge⟩ h₂ (hin.count_le ha), ?_⟩
    calc L₂ e ≤ L₁ a.count * W := hstop e (.head _)
      _ = L s * (T∗ * W) := by rw [hentry, mul_assoc]

/-- A passage that is left for a new state, with a tag around it, is a fragment. -/
lemma Passage.fragment {name : String} (h : Passage a.withGroup b s e A) (ha : a.Valid)
    (hs : a.Inner s) (hn : name ≠ mainGroup) :
    Fragment a ((b.withState.withEdge e none b.count).withTag name s e) s b.count A := by
  have hgroup : a.Grows a.withGroup := .group .refl
  have hb := h.grows.valid (hgroup.valid ha)
  have hnew : b.Grows b.withState := .state .refl
  have hleave : Link b.withState (b.withState.withEdge e none b.count) e b.count 1 :=
    link_withEdge (h.inner.of_grows hnew hb).2 hb.inner_withState
  have hin := hgroup.trans h.grows
  have hout := hnew.trans hleave.grows
  have htag : (b.withState.withEdge e none b.count).Grows
      ((b.withState.withEdge e none b.count).withTag name s e) :=
    .tag .refl hn (hs.of_grows (hin.trans hout) ha).2 (h.inner.of_grows hout hb).2
  refine ⟨(hin.trans hout).trans htag,
    hb.inner_withState.of_grows (hleave.grows.trans htag) hb.withState, fun m hm => ?_,
    fun L P hL hle => ?_⟩
  · have hm' : (b.withState.withEdge e none b.count).Within m := hm.of_grows htag
    have hway := (h.reads m (hm'.of_grows hout)).mul (hleave.reads m hm')
    rwa [mul_one] at hway
  · obtain ⟨L₁, h₁, hstop⟩ := h.labels L hL
    obtain ⟨L₂, h₂, hlast⟩ := h₁.labels.withState hb P
    have hexit : Labels (b.withState.withEdge e none b.count) L₂ := h₂.labels.withEdge (by
      rw [h₂.agree e h.inner.2, hlast]
      exact (mul_one _).le.trans (hstop.trans hle))
    have hbegin : Relabels a b L L₁ := ⟨h₁.agree, h₁.labels⟩
    exact ⟨L₂, hbegin.trans ⟨h₂.agree, hexit⟩ (hin.count_le ha), hlast⟩

end Assembly

/-! ### Patterns -/

namespace Pattern

open Assembly

/-- A group is assembled around its body: an entry, the branches from there on, led together, and a
state behind them. -/
lemma Atom.makes_group {header : Header} {body : Pattern} {a d : Assembly} {s r : Nat}
    (h : Makes ((Atom.group header body).assemble s) a r d) :
    ∃ stops b j c, Makes (body.assembleBranches a.count)
        (a.withGroup.withState.withEdge s none a.count) stops b ∧ Makes (join stops) b j c ∧
      r = c.count ∧
      d = (c.withState.withEdge j none c.count).withTag (header.name (a.groups + 1)) s j := by
  obtain ⟨_, b, h₁, h⟩ := makes_bind.1 h
  obtain ⟨rfl, rfl⟩ := makes_newGroup.1 h₁
  obtain ⟨_, b, h₂, h⟩ := makes_bind.1 h
  obtain ⟨rfl, rfl⟩ := makes_newState.1 h₂
  obtain ⟨_, b, h₃, h⟩ := makes_bind.1 h
  obtain rfl := makes_connect.1 h₃
  obtain ⟨stops, b, hstops, h⟩ := makes_bind.1 h
  obtain ⟨j, c, hj, h⟩ := makes_bind.1 h
  obtain ⟨_, f, h₄, h⟩ := makes_bind.1 h
  obtain ⟨rfl, rfl⟩ := makes_newState.1 h₄
  obtain ⟨_, f, h₅, h⟩ := makes_bind.1 h
  obtain rfl := makes_connect.1 h₅
  obtain ⟨_, f, h₆, h⟩ := makes_bind.1 h
  obtain rfl := makes_tag.1 h₆
  obtain ⟨rfl, rfl⟩ := makes_pure.1 h
  exact ⟨stops, b, j, c, hstops, hj, rfl, rfl⟩

mutual

/-- The branches of a pattern are assembled to a bundle. -/
theorem bundle_assemble : ∀ (p : Pattern) {a b : Assembly} {s : Nat} {stops : List Nat},
    p.WellFormed → a.Valid → a.Inner s → Makes (p.assembleBranches s) a stops b →
      Bundle a b s stops p.trips p.walks
  | .single branch, a, b, s, stops, hp, ha, hs, h => by
      obtain ⟨e, c, he, h⟩ := makes_bind.1 h
      obtain ⟨rfl, rfl⟩ := makes_pure.1 h
      exact (branch.chain_assemble hp ha hs he).bundle
  | .alternative branches branch, a, b, s, stops, hp, ha, hs, h => by
      obtain ⟨first, c, hfirst, h⟩ := makes_bind.1 h
      obtain ⟨e, d, he, h⟩ := makes_bind.1 h
      obtain ⟨rfl, rfl⟩ := makes_pure.1 h
      have hbundle := branches.bundle_assemble hp.1 ha hs hfirst
      have hchain := branch.chain_assemble hp.2 (hbundle.grows.valid ha)
        (hs.of_grows hbundle.grows ha) he
      exact hbundle.append hchain ha hs

/-- A branch is assembled to a chain. -/
lemma Sequence.chain_assemble : ∀ (x : Sequence) {a b : Assembly} {s e : Nat},
    x.WellFormed → a.Valid → a.Inner s → Makes (x.assemble s) a e b →
      Chain a b s e (fun Y => x.trips Y) fun Y => x.walks Y
  | .empty, a, b, s, e, _, _, hs, h => by
      obtain ⟨rfl, rfl⟩ := makes_pure.1 h
      exact chain_refl hs
  | .append items atom q, a, b, s, e, hp, ha, hs, h => by
      obtain ⟨j, c, hj, h⟩ := makes_bind.1 h
      obtain ⟨k, d, hk, h⟩ := makes_bind.1 h
      have hitems := items.chain_assemble hp.1 ha hs hj
      have hc := hitems.grows.valid ha
      have hatom := atom.fragment_assemble hp.2 hc hitems.inner hk
      have hchain := hitems.comp (hatom.chain hc hitems.inner h) ha
      simpa only [Sequence.trips, Sequence.walks, mul_assoc] using hchain

/-- An atom is assembled to a fragment. -/
lemma Atom.fragment_assemble : ∀ (x : Atom) {a b : Assembly} {s e : Nat},
    x.WellFormed → a.Valid → a.Inner s → Makes (x.assemble s) a e b →
      Fragment a b s e x.threaded
  | .literal l, a, b, s, e, _, ha, hs, h => by
      obtain ⟨_, c, h₁, h⟩ := makes_bind.1 h
      obtain ⟨rfl, rfl⟩ := makes_newState.1 h₁
      obtain ⟨_, c, h₂, h⟩ := makes_bind.1 h
      obtain ⟨rfl, rfl⟩ := makes_pure.1 h
      exact (link_literal ha.withState (hs.of_grows (.state .refl) ha) ha.inner_withState
        h₂).fragment ha hs
  | .charClass members, a, b, s, e, _, ha, hs, h => by
      obtain ⟨_, c, h₁, h⟩ := makes_bind.1 h
      obtain ⟨rfl, rfl⟩ := makes_newState.1 h₁
      obtain ⟨_, c, h₂, h⟩ := makes_bind.1 h
      obtain ⟨rfl, rfl⟩ := makes_pure.1 h
      exact (link_members ha.withState (hs.of_grows (.state .refl) ha) ha.inner_withState
        h₂).fragment ha hs
  | .group header body, a, b, s, e, hp, ha, hs, h => by
      obtain ⟨stops, c, j, d, hstops, hj, rfl, rfl⟩ := Atom.makes_group h
      have hg : a.withGroup.Valid := Grows.refl.group.valid ha
      obtain ⟨hv, hentry⟩ := hg.entry hs.2
      have hbundle := (body.bundle_assemble hp.2 hv hentry hstops).join hv hj
      exact (hbundle.passage hg hs.2).fragment ha hs (hp.1.name_ne_mainGroup (Nat.succ_pos _))

end

end Pattern

end CaptureAutomata
