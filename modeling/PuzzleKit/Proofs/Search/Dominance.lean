import PuzzleKit.Proofs.Search.Run

/-!
# Why a dominated state can be dropped

Three prunings are at work in a search under a comparison. An offered state is
refused unless it is better than its rival, a waiting state is dropped once a
better one is kept for its identity, and it is dropped too once the best state
at the target is at least as good. None of them loses anything as long as a
better state of the same identity can do whatever the worse one can.

The invariant that carries this is `Frontier.Accounted`: a kept state that no
longer waits is either no better than the best one at the target, or each of
its successors is covered, which means that its rival is by now at least as
good. Rivals only ever improve, so what is covered stays covered, and a state
that is kept anew also waits. When nothing waits any more, the alternatives
left are the two in which the successors of a kept state are answered for
(`covers_successor`), and a chain of pushes can be followed through the states
kept for its identities.
-/

namespace PuzzleKit.Search

variable {S Id M : Type}

/-- Of two states of one identity, the one that is at least as good has, for
every successor of the other, a successor of the same identity that is at
least as good. -/
def Dominates (identity : S → Id) (compare : S → S → Ordering) (successors : S → List S) :
    Prop :=
  ∀ a b, identity a = identity b → (compare a b).isLE →
    ∀ b' ∈ successors b, ∃ a' ∈ successors a,
      identity a' = identity b' ∧ (compare a' b').isLE

/-- A state at the target that is at least as good as another state is at least
as good as everything at the target that the other one leads to. -/
def Bounds (identity : S → Id) (compare : S → S → Ordering) (target : Id)
    (successors : S → List S) : Prop :=
  ∀ t s, identity t = target → (compare t s).isLE →
    ∀ t', Leads successors s t' → identity t' = target → (compare t t').isLE

section Bounds

variable {identity : S → Id} {compare : S → S → Ordering} {target : Id} {successors : S → List S}

/-- A bound can be read of the other state itself, too. -/
theorem Bounds.isLE_of_reaches (h : Bounds identity compare target successors) {t s t' : S}
    (ht : identity t = target) (hle : (compare t s).isLE) (hs : Reaches successors s t')
    (ht' : identity t' = target) : (compare t t').isLE := by
  rcases Relation.reflTransGen_iff_eq_or_transGen.mp hs with rfl | hleads
  · exact hle
  · exact h t s ht hle t' hleads ht'

/-- Where no push makes a state better, every state bounds what it leads to. -/
theorem bounds_of_push_isLE [Std.TransCmp compare]
    (hpush : ∀ s, ∀ s' ∈ successors s, (compare s s').isLE) :
    Bounds identity compare target successors := by
  intro t s _ hle
  have hchain : ∀ t', Leads successors s t' → (compare t t').isLE := by
    intro t' hleads
    induction hleads with
    | single hmem => exact Std.TransCmp.isLE_trans hle (hpush _ _ hmem)
    | tail _ hmem ih => exact Std.TransCmp.isLE_trans ih (hpush _ _ hmem)
  exact fun t' hleads _ => hchain t' hleads

end Bounds

section Improves

variable {compare : S → S → Ordering} {s : S} {rival : Option S}

theorem lt_of_improves {k : S} (h : improves compare s (some k) = true) :
    compare s k = .lt := by
  simpa [improves] using h

theorem exists_isLE_of_not_improves [Std.OrientedCmp compare]
    (h : ¬improves compare s rival = true) : ∃ k, rival = some k ∧ (compare k s).isLE := by
  cases rival with
  | none => exact absurd rfl h
  | some k =>
      refine ⟨k, rfl, ?_⟩
      have hge : (compare s k).isGE := by
        simpa [improves, Ordering.ne_lt_iff_isGE] using h
      exact Std.OrientedCmp.isLE_of_isGE hge

end Improves

variable [DecidableEq Id] [Hashable Id]

namespace Frontier

variable {rules : Rules S Id} {compare : S → S → Ordering} {successors : S → List S}
  {f f' f'' : Frontier S Id}

/-- The state that an offered state of an identity competes with. -/
def rival (rules : Rules S Id) (f : Frontier S Id) (id : Id) : Option S :=
  if rules.target = some id then f.best else f.known id

/-- The state kept for the identity of a state is at least as good. -/
def Keeps (compare : S → S → Ordering) (rules : Rules S Id) (f : Frontier S Id) (s : S) : Prop :=
  ∃ k, f.known (rules.identity s) = some k ∧ (compare k s).isLE

/-- The rival of a state is at least as good as the state. -/
def Covers (compare : S → S → Ordering) (rules : Rules S Id) (f : Frontier S Id) (s : S) : Prop :=
  ∃ k, f.rival rules (rules.identity s) = some k ∧ (compare k s).isLE

/-- Under a comparison an offered state is admitted if it improves on its rival,
which is the best state at the target or the one kept for the identity. -/
theorem offer_cases_of_improving (hadmission : rules.admission = .improving compare)
    (f : Frontier S Id) (s : S) :
    (¬improves compare s (f.rival rules (rules.identity s)) = true ∧
        f.offer rules s = (false, f)) ∨
      (rules.target = some (rules.identity s) ∧ improves compare s f.best = true ∧
        f.offer rules s = (true, { f with best := some s })) ∨
      (rules.target ≠ some (rules.identity s) ∧
        improves compare s (f.known (rules.identity s)) = true ∧
        f.offer rules s = (true, f.keep rules s)) := by
  rw [offer, hadmission, rival]
  simp only []
  split
  · next htarget =>
      split
      · next himp => exact Or.inr (Or.inl ⟨htarget, himp, rfl⟩)
      · next himp => exact Or.inl ⟨himp, rfl⟩
  · next htarget =>
      split
      · next himp => exact Or.inr (Or.inr ⟨htarget, himp, rfl⟩)
      · next himp => exact Or.inl ⟨himp, rfl⟩

/-- What a search under a comparison does to its frontier: waiting states go
on waiting, rivals improve, and a state that was not kept before waits. -/
structure Grows (compare : S → S → Ordering) (f f' : Frontier S Id) : Prop where
  queue : ∀ s ∈ f.queue, s ∈ f'.queue
  known : ∀ id k, f.known id = some k → ∃ k', f'.known id = some k' ∧ (compare k' k).isLE
  best : ∀ b, f.best = some b → ∃ b', f'.best = some b' ∧ (compare b' b).isLE
  fresh : ∀ id k, f'.known id = some k → f.known id = some k ∨ k ∈ f'.queue

section Growth

variable [Std.TransCmp compare]

theorem Grows.refl (f : Frontier S Id) : f.Grows compare f where
  queue _ hs := hs
  known _ k hk := ⟨k, hk, Std.ReflCmp.isLE_rfl⟩
  best b hb := ⟨b, hb, Std.ReflCmp.isLE_rfl⟩
  fresh _ _ hk := Or.inl hk

theorem Grows.trans (h : f.Grows compare f') (h' : f'.Grows compare f'') :
    f.Grows compare f'' where
  queue s hs := h'.queue s (h.queue s hs)
  known id k hk := by
    obtain ⟨k', hk', hle⟩ := h.known id k hk
    obtain ⟨k'', hk'', hle'⟩ := h'.known id k' hk'
    exact ⟨k'', hk'', Std.TransCmp.isLE_trans hle' hle⟩
  best b hb := by
    obtain ⟨b', hb', hle⟩ := h.best b hb
    obtain ⟨b'', hb'', hle'⟩ := h'.best b' hb'
    exact ⟨b'', hb'', Std.TransCmp.isLE_trans hle' hle⟩
  fresh id k hk := by
    rcases h'.fresh id k hk with hk | hk
    · exact (h.fresh id k hk).imp_right (h'.queue k)
    · exact Or.inr hk

theorem Covers.grows {s : S} (h : f.Covers compare rules s) (hgrows : f.Grows compare f') :
    f'.Covers compare rules s := by
  obtain ⟨k, hk, hle⟩ := h
  rw [rival] at hk
  have hbetter : ∃ k', f'.rival rules (rules.identity s) = some k' ∧ (compare k' k).isLE := by
    rw [rival]
    split at hk
    · next htarget => rw [if_pos htarget]; exact hgrows.best k hk
    · next htarget => rw [if_neg htarget]; exact hgrows.known _ k hk
  obtain ⟨k', hk', hle'⟩ := hbetter
  exact ⟨k', hk', Std.TransCmp.isLE_trans hle' hle⟩

theorem grows_best {s : S} (h : improves compare s f.best = true) :
    f.Grows compare { f with best := some s } where
  queue _ ht := ht
  known _ k hk := ⟨k, hk, Std.ReflCmp.isLE_rfl⟩
  best b hb := by
    rw [hb] at h
    exact ⟨s, rfl, Ordering.isLE_of_eq_lt (lt_of_improves h)⟩
  fresh _ _ hk := Or.inl hk

theorem grows_keep {s : S}
    (h : improves compare s (f.known (rules.identity s)) = true) :
    f.Grows compare (f.keep rules s) where
  queue _ ht := mem_queue_keep.mpr (Or.inr ht)
  known id k hk := by
    rw [known_keep]
    split
    · next hid =>
        rw [hid, hk] at h
        exact ⟨s, rfl, Ordering.isLE_of_eq_lt (lt_of_improves h)⟩
    · exact ⟨k, hk, Std.ReflCmp.isLE_rfl⟩
  best b hb := ⟨b, hb, Std.ReflCmp.isLE_rfl⟩
  fresh id k hk := by
    rw [known_keep] at hk
    split at hk
    · cases hk; exact Or.inr (mem_queue_keep.mpr (Or.inl rfl))
    · exact Or.inl hk

/-- An offer under a comparison improves the frontier, and whether it is
admitted or not, the offered state is covered afterwards. -/
theorem offer_improving (hadmission : rules.admission = .improving compare)
    (f : Frontier S Id) (s : S) :
    f.Grows compare (f.offer rules s).2 ∧ (f.offer rules s).2.Covers compare rules s := by
  rcases offer_cases_of_improving hadmission f s with
    ⟨hnot, heq⟩ | ⟨htarget, himp, heq⟩ | ⟨htarget, himp, heq⟩ <;> rw [heq]
  · obtain ⟨k, hk, hle⟩ := exists_isLE_of_not_improves hnot
    exact ⟨Grows.refl f, k, hk, hle⟩
  · refine ⟨grows_best himp, s, ?_, Std.ReflCmp.isLE_rfl⟩
    rw [rival, if_pos htarget]
  · refine ⟨grows_keep himp, s, ?_, Std.ReflCmp.isLE_rfl⟩
    rw [rival, if_neg htarget, known_keep, if_pos rfl]

theorem offerAll_improving (hadmission : rules.admission = .improving compare)
    (f : Frontier S Id) (states : List S) :
    f.Grows compare (f.offerAll rules states) ∧
      ∀ s ∈ states, (f.offerAll rules states).Covers compare rules s := by
  induction states generalizing f with
  | nil => exact ⟨Grows.refl f, fun _ hs => absurd hs List.not_mem_nil⟩
  | cons s states ih =>
      obtain ⟨hgrows, hcovers⟩ := offer_improving hadmission f s
      obtain ⟨hgrows', hcovers'⟩ := ih (f.offer rules s).2
      rw [offerAll_cons]
      refine ⟨hgrows.trans hgrows', fun t ht => ?_⟩
      rcases List.mem_cons.mp ht with rfl | ht
      · exact hcovers.grows hgrows'
      · exact hcovers' t ht

end Growth

/-! ## The invariant -/

/-- A kept state that does not wait is no better than the best one at the
target, or its successors are covered. -/
def Accounted (compare : S → S → Ordering) (rules : Rules S Id) (successors : S → List S)
    (f : Frontier S Id) : Prop :=
  ∀ id k, f.known id = some k →
    k ∈ f.queue ∨ (∃ b, f.best = some b ∧ (compare b k).isLE) ∨
      ∀ s ∈ successors k, f.Covers compare rules s

theorem Accounted.init {start : S} :
    (Frontier.start rules start).Accounted compare rules successors := by
  intro id k hk
  rw [known_start] at hk
  split at hk
  · cases hk; exact Or.inl List.mem_cons_self
  · cases hk

theorem isStale_iff (hadmission : rules.admission = .improving compare) {s : S} :
    f.isStale rules s = true ↔
      (∃ b, f.best = some b ∧ (compare b s).isLE) ∨
        ∃ k, f.known (rules.identity s) = some k ∧ compare k s = .lt := by
  rw [isStale, hadmission]
  simp [Option.any_eq_true, Ordering.isLE_iff_ne_gt]

section Step

variable [Std.TransCmp compare] {start : S}

/-- A stale state is not missed: the best state is at least as good, or it is
not kept. -/
theorem Accounted.drop (htraced : f.Traced rules successors start)
    (h : f.Accounted compare rules successors)
    (hadmission : rules.admission = .improving compare) {s : S} {queue : List S}
    (hqueue : f.queue = s :: queue) (hstale : { f with queue }.isStale rules s = true) :
    { f with queue }.Accounted compare rules successors := by
  intro id k hk
  rcases h id k hk with hmem | hcut | hcovered
  · rw [hqueue] at hmem
    rcases List.mem_cons.mp hmem with rfl | hmem
    · rcases (isStale_iff hadmission).mp hstale with hcut | ⟨k', hk', hlt⟩
      · exact Or.inr (Or.inl hcut)
      · -- The state is the one kept for its identity, and no state beats itself.
        rw [htraced.identity id k hk] at hk'
        cases hk.symm.trans hk'
        rw [(Std.ReflCmp.compare_self : compare k k = .eq)] at hlt
        cases hlt
    · exact Or.inl hmem
  · exact Or.inr (Or.inl hcut)
  · exact Or.inr (Or.inr hcovered)

theorem Accounted.expand (h : f.Accounted compare rules successors)
    (hadmission : rules.admission = .improving compare) {s : S} {queue states : List S}
    (hqueue : f.queue = s :: queue) (hstates : ∀ t ∈ successors s, t ∈ states) :
    ({ f with queue }.offerAll rules states).Accounted compare rules successors := by
  obtain ⟨hgrows, hcovers⟩ := offerAll_improving hadmission { f with queue } states
  intro id k hk
  rcases hgrows.fresh id k hk with hold | hwaits
  · rcases h id k hold with hmem | ⟨b, hb, hle⟩ | hcovered
    · rw [hqueue] at hmem
      rcases List.mem_cons.mp hmem with rfl | hmem
      · exact Or.inr (Or.inr fun t ht => hcovers t (hstates t ht))
      · exact Or.inl (hgrows.queue k hmem)
    · obtain ⟨b', hb', hle'⟩ := hgrows.best b hb
      exact Or.inr (Or.inl ⟨b', hb', Std.TransCmp.isLE_trans hle' hle⟩)
    · have hcovered : ∀ t ∈ successors k, { f with queue }.Covers compare rules t := hcovered
      exact Or.inr (Or.inr fun t ht => (hcovered t ht).grows hgrows)
  · exact Or.inl hwaits

/-- What holds of the frontier throughout a search under a comparison. -/
structure Faithful (compare : S → S → Ordering) (rules : Rules S Id) (successors : S → List S)
    (start : S) (f : Frontier S Id) : Prop where
  traced : f.Traced rules successors start
  accounted : f.Accounted compare rules successors
  start : f.Keeps compare rules start

theorem Faithful.init : (Frontier.start rules start).Faithful compare rules successors start where
  traced := .init
  accounted := .init
  start := ⟨start, by rw [known_start, if_pos rfl], Std.ReflCmp.isLE_rfl⟩

theorem Faithful.drop (h : f.Faithful compare rules successors start)
    (hadmission : rules.admission = .improving compare) {s : S} {queue : List S}
    (hqueue : f.queue = s :: queue) (hstale : { f with queue }.isStale rules s = true) :
    { f with queue }.Faithful compare rules successors start where
  traced := h.traced.tail hqueue
  accounted := h.accounted.drop h.traced hadmission hqueue hstale
  start := h.start

theorem Faithful.expand (h : f.Faithful compare rules successors start)
    (hadmission : rules.admission = .improving compare) {s : S} {queue states : List S}
    (hqueue : f.queue = s :: queue) (hstates : ∀ t, t ∈ states ↔ t ∈ successors s) :
    ({ f with queue }.offerAll rules states).Faithful compare rules successors start where
  traced := (h.traced.tail hqueue).offerAll (h.traced.queue s (hqueue ▸ List.mem_cons_self))
    fun t => (hstates t).mp
  accounted := h.accounted.expand hadmission hqueue fun t => (hstates t).mpr
  start := by
    obtain ⟨k, hk, hle⟩ := h.start
    obtain ⟨hgrows, -⟩ := offerAll_improving hadmission { f with queue } states
    obtain ⟨k', hk', hle'⟩ := hgrows.known _ k hk
    exact ⟨k', hk', Std.TransCmp.isLE_trans hle' hle⟩

/-- Once nothing waits, a successor of a state that is kept, or of one that a
kept state dominates, is covered, unless the best state at the target is at
least as good as the state already. -/
theorem Faithful.covers_successor (h : f.Faithful compare rules successors start)
    (hdominates : Dominates rules.identity compare successors) (hqueue : f.queue = [])
    {s s' : S} (hs : f.Keeps compare rules s) (hs' : s' ∈ successors s) :
    (∃ b, f.best = some b ∧ (compare b s).isLE) ∨ f.Covers compare rules s' := by
  obtain ⟨k, hk, hle⟩ := hs
  rcases h.accounted _ k hk with hwaits | ⟨b, hb, hbk⟩ | hcovered
  · rw [hqueue] at hwaits
    cases hwaits
  · exact Or.inl ⟨b, hb, Std.TransCmp.isLE_trans hbk hle⟩
  · obtain ⟨k', hmem, hid, hle'⟩ := hdominates k s (h.traced.identity _ k hk) hle s' hs'
    obtain ⟨r, hr, hrk⟩ := hcovered k' hmem
    rw [hid] at hr
    exact Or.inr ⟨r, hr, Std.TransCmp.isLE_trans hrk hle'⟩

end Step

end Frontier

variable {rules : Rules S Id} {compare : S → S → Ordering} {successors : S → List S}
  {expand : Expansion S Id M}

/-- A finished search under a comparison has a faithful frontier on which
nothing waits. -/
theorem explore_faithful_of_pushes [Std.TransCmp compare]
    (hadmission : rules.admission = .improving compare) (hexpand : expand.Pushes rules successors)
    {fuel : Nat} {memory : M} {start : S} {e : Exploration S Id M}
    (hrun : explore fuel rules expand memory start = some e) :
    e.frontier.Faithful compare rules successors start ∧ e.frontier.queue = [] := by
  refine Exploration.run_preserves
    (P := fun e => e.frontier.Faithful compare rules successors start) ?_ .init hrun
  intro e e' he hstep
  obtain ⟨s, queue, hqueue, ⟨hstale, heq⟩ | ⟨-, states, hstates, heq⟩⟩ :=
    Exploration.step?_cases_of_pushes hexpand hstep
  · rw [heq]; exact he.drop hadmission hqueue hstale
  · rw [heq]; exact he.expand hadmission hqueue hstates

theorem explore_faithful [Std.TransCmp compare]
    (hadmission : rules.admission = .improving compare) (hexpand : expand.Offers successors)
    {fuel : Nat} {memory : M} {start : S} {e : Exploration S Id M}
    (hrun : explore fuel rules expand memory start = some e) :
    e.frontier.Faithful compare rules successors start ∧ e.frontier.queue = [] :=
  explore_faithful_of_pushes hadmission hexpand.pushes hrun

end PuzzleKit.Search
