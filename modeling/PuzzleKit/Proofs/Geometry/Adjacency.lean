import PuzzleKit.Proofs.Geometry.Coordinate
import PuzzleKit.Proofs.Geometry.Direction

/-!
# Adjacent coordinates

Two coordinates are adjacent if they differ, by at most one in each component, and so if
a step leads from one to the other. The direction of that step is the only one, as a
direction is its unit step, and the step in the opposite direction leads back.

The direction between two coordinates is found by taking one step after the other, up to
the one that leads there. An answer is therefore right wherever there is one
(`eq_some_iff_of_relativeAmong`), and whether there is one depends on where the first
coordinate stands: a step over an edge of the width is refused, also when it is not the
one that is looked for (`relative_eq_error_iff`).
-/

namespace PuzzleKit.Coordinate

variable {w : Width} {a b c n : Coordinate w} {d e : Direction} {directions : List Direction}
  {answer : Option Direction} {fault : ArithmeticFault}

/-- The two differ, by at most one in each component. -/
structure Adjacent (a b : Coordinate w) : Prop where
  ne : a ≠ b
  x_near : (b.x.val - a.x.val).natAbs ≤ 1
  y_near : (b.y.val - a.y.val).natAbs ≤ 1

/-- Neither component is the least or the greatest word of the width. -/
structure Inner (c : Coordinate w) : Prop where
  min_lt_x : w.min < c.x.val
  x_lt_max : c.x.val < w.max
  min_lt_y : w.min < c.y.val
  y_lt_max : c.y.val < w.max

theorem Inner.exists_step (hc : c.Inner) (d : Direction) : ∃ n, c.step d = .ok n := by
  obtain ⟨hx, hx', hy, hy'⟩ := hc
  have hdx := d.unit_dx
  have hdy := d.unit_dy
  exact Coordinate.exists_step (by omega) (by omega)

theorem step_opposite : n.step d.opposite = .ok c ↔ c.step d = .ok n := by
  rw [step_eq_ok_iff, step_eq_ok_iff, Direction.dx_opposite, Direction.dy_opposite]
  omega

theorem eq_of_step_eq (h : c.step d = .ok n) (h' : c.step e = .ok n) : d = e := by
  obtain ⟨hx, hy⟩ := step_eq_ok_iff.mp h
  obtain ⟨hx', hy'⟩ := step_eq_ok_iff.mp h'
  exact Direction.eq_of_offset_eq (by omega) (by omega)

theorem adjacent_iff_exists_step : a.Adjacent b ↔ ∃ d, a.step d = .ok b := by
  constructor
  · rintro ⟨hne, hx, hy⟩
    have hmoved : b.x.val - a.x.val ≠ 0 ∨ b.y.val - a.y.val ≠ 0 := by
      by_contra hsame
      exact hne (ext_val (by omega) (by omega))
    obtain ⟨d, -, hdx, hdy⟩ := Direction.exists_of_unit (by omega) (by omega) hmoved
    exact ⟨d, step_eq_ok_iff.mpr ⟨by omega, by omega⟩⟩
  · rintro ⟨d, h⟩
    obtain ⟨hx, hy⟩ := step_eq_ok_iff.mp h
    have hdx := d.unit_dx
    have hdy := d.unit_dy
    refine ⟨?_, by omega, by omega⟩
    rintro rfl
    have hmoved := d.offset_ne_zero
    omega

/-! ## Searching for a direction -/

theorem relativeAmong_cons {next : Coordinate w} (hnext : c.step d = .ok next) :
    c.relativeAmong n (d :: directions) =
      if next = n then .ok (some d) else c.relativeAmong n directions := by
  rw [relativeAmong, hnext]
  rfl

/-- An answer is the direction of the step from one to the other. -/
theorem eq_some_iff_of_relativeAmong (h : c.relativeAmong n directions = .ok answer) :
    answer = some d ↔ d ∈ directions ∧ c.step d = .ok n := by
  induction directions with
  | nil =>
      cases h
      simp
  | cons first directions ih =>
      obtain ⟨next, hnext, h⟩ := bind_eq_ok_iff.mp h
      rw [List.mem_cons, or_and_right]
      split at h
      -- the step that is found is the only one that leads there
      · next heq =>
          cases h
          subst heq
          rw [Option.some.injEq]
          constructor
          · rintro rfl
            exact .inl ⟨rfl, hnext⟩
          · rintro (⟨rfl, -⟩ | ⟨-, hstep⟩)
            · rfl
            · exact eq_of_step_eq hnext hstep
      · next hne =>
          refine (ih h).trans (or_iff_right ?_).symm
          rintro ⟨rfl, hstep⟩
          exact hne (Except.ok.inj (hnext.symm.trans hstep))

/-- A search that was refused has tried a step that leads out. -/
theorem exists_step_error_of_relativeAmong (h : c.relativeAmong n directions = .error fault) :
    ∃ d ∈ directions, c.step d = .error fault := by
  induction directions with
  | nil => cases h
  | cons first directions ih =>
      rcases bind_eq_error_iff.mp h with hout | ⟨next, -, h⟩
      · exact ⟨first, List.mem_cons_self, hout⟩
      · split at h
        · cases h
        · obtain ⟨d, hd, hout⟩ := ih h
          exact ⟨d, List.mem_cons_of_mem _ hd, hout⟩

theorem Inner.relativeAmong_ne_error (hc : c.Inner) :
    c.relativeAmong n directions ≠ .error fault := by
  intro h
  obtain ⟨d, -, hout⟩ := exists_step_error_of_relativeAmong h
  obtain ⟨next, hnext⟩ := hc.exists_step d
  rw [hnext] at hout
  cases hout

/-- The direction that is found is the one of a step from one to the other. -/
theorem Inner.exists_relativeAmong (hc : c.Inner) (n : Coordinate w)
    (directions : List Direction) :
    ∃ answer, c.relativeAmong n directions = .ok answer ∧
      ∀ d, answer = some d ↔ d ∈ directions ∧ c.step d = .ok n := by
  cases h : c.relativeAmong n directions with
  | ok answer => exact ⟨answer, rfl, fun d => eq_some_iff_of_relativeAmong h⟩
  | error e => exact absurd h hc.relativeAmong_ne_error

/-! ## At the edges of the width -/

theorem exists_step_iff : (∃ b, a.step d = .ok b) ↔
    (w.min ≤ a.x.val + d.dx ∧ a.x.val + d.dx ≤ w.max) ∧
      w.min ≤ a.y.val + d.dy ∧ a.y.val + d.dy ≤ w.max := by
  constructor
  · rintro ⟨b, h⟩
    obtain ⟨hx, hy⟩ := step_eq_ok_iff.mp h
    rw [← hx, ← hy]
    exact ⟨⟨b.x.min_le, b.x.le_max⟩, b.y.min_le, b.y.le_max⟩
  · exact fun ⟨hx, hy⟩ => exists_step hx hy

/-- Each cardinal step leads over one edge. -/
theorem exists_cardinal_step_iff (a : Coordinate w) :
    ((∃ b, a.step .north = .ok b) ↔ a.y.val ≠ w.min) ∧
      ((∃ b, a.step .east = .ok b) ↔ a.x.val ≠ w.max) ∧
      ((∃ b, a.step .south = .ok b) ↔ a.y.val ≠ w.max) ∧
      ((∃ b, a.step .west = .ok b) ↔ a.x.val ≠ w.min) := by
  have hx := a.x.min_le
  have hx' := a.x.le_max
  have hy := a.y.min_le
  have hy' := a.y.le_max
  refine ⟨?_, ?_, ?_, ?_⟩ <;> rw [exists_step_iff, Direction.dx, Direction.dy] <;> omega

/-- A search is refused at a step that leads out, and it goes on after one that fits and
leads elsewhere. -/
theorem relativeAmong_cons_eq_error_iff {out rest : Prop}
    (hout : (∃ next, a.step d = .ok next) ↔ ¬out)
    (hrest : ¬out →
      (a.relativeAmong b directions = .error fault ↔ fault = .addOverflow ∧ rest)) :
    a.relativeAmong b (d :: directions) = .error fault ↔
      fault = .addOverflow ∧ (out ∨ a.step d ≠ .ok b ∧ rest) := by
  cases hstep : a.step d with
  | error e =>
      have hleaves : out := by
        by_contra hfits
        obtain ⟨next, hnext⟩ := hout.mpr hfits
        rw [hstep] at hnext
        cases hnext
      have hrefused : a.relativeAmong b (d :: directions) = .error e :=
        bind_eq_error_iff.mpr (.inl hstep)
      cases fault_of_step hstep
      rw [hrefused, Except.error.injEq, eq_comm]
      exact (and_iff_left (.inl hleaves)).symm
  | ok next =>
      have hfits : ¬out := hout.mp ⟨next, hstep⟩
      rw [relativeAmong_cons hstep, or_iff_right hfits, ← and_left_comm, ← hrest hfits]
      by_cases hfound : next = b <;> simp [hfound]

/-- The search for the step from `a` to `b` tries one over an edge of the width. The steps
to the north, east, south and west are tried first and in this order, and the one that
leads to `b` is the last that is tried. -/
def Overruns (a b : Coordinate w) : Prop :=
  a.y.val = w.min ∨ a.step .north ≠ .ok b ∧
    (a.x.val = w.max ∨ a.step .east ≠ .ok b ∧
      (a.y.val = w.max ∨ a.step .south ≠ .ok b ∧ a.x.val = w.min))

theorem relative_eq_error_iff :
    a.relative b = .error fault ↔ fault = .addOverflow ∧ a.Overruns b := by
  obtain ⟨hnorth, heast, hsouth, hwest⟩ := exists_cardinal_step_iff a
  have hordinals : a.y.val ≠ w.min → a.x.val ≠ w.max → a.y.val ≠ w.max → a.x.val ≠ w.min →
      (a.relativeAmong b Direction.ordinal = .error fault ↔ fault = .addOverflow ∧ False) := by
    intro htop hright hbottom hleft
    have hinner : a.Inner :=
      ⟨lt_of_le_of_ne a.x.min_le hleft.symm, lt_of_le_of_ne a.x.le_max hright,
        lt_of_le_of_ne a.y.min_le htop.symm, lt_of_le_of_ne a.y.le_max hbottom⟩
    exact iff_of_false hinner.relativeAmong_ne_error fun h => h.2
  -- The four cardinal steps come first; once they fit, so do all the others.
  have hcardinals := relativeAmong_cons_eq_error_iff hnorth fun htop =>
    relativeAmong_cons_eq_error_iff heast fun hright =>
      relativeAmong_cons_eq_error_iff hsouth fun hbottom =>
        relativeAmong_cons_eq_error_iff hwest (hordinals htop hright hbottom)
  simp only [and_false, or_false] at hcardinals
  exact hcardinals

/-- The direction between two coordinates is found wherever no step over an edge of the
width comes in between, so it is found from all but the outermost coordinates. -/
theorem relative_decides_adjacency (a b : Coordinate w) :
    (∀ fault, a.relative b = .error fault ↔ fault = .addOverflow ∧ a.Overruns b) ∧
      (¬a.Overruns b → ∃ answer, a.relative b = .ok answer ∧
        (answer = none ↔ ¬a.Adjacent b) ∧ ∀ d, answer = some d ↔ a.step d = .ok b) ∧
      (a.Inner → ¬a.Overruns b) := by
  refine ⟨fun fault => relative_eq_error_iff, fun hin => ?_, fun hinner hover => ?_⟩
  · cases h : a.relative b with
    | error e => exact absurd (relative_eq_error_iff.mp h).2 hin
    | ok answer =>
        have hstep : ∀ d, answer = some d ↔ a.step d = .ok b := fun d =>
          (eq_some_iff_of_relativeAmong h).trans (and_iff_right d.mem_all)
        refine ⟨answer, rfl, ?_, hstep⟩
        rw [adjacent_iff_exists_step, ← exists_congr hstep, ← Option.isSome_iff_exists,
          Option.not_isSome_iff_eq_none]
  · exact hinner.relativeAmong_ne_error (relative_eq_error_iff.mpr ⟨rfl, hover⟩)

def rightEdge : Coordinate .i8 := ⟨Word.maximum .i8, 0⟩

def aboveRightEdge : Coordinate .i8 := ⟨Word.maximum .i8, ⟨-1, by decide, by decide⟩⟩

def belowRightEdge : Coordinate .i8 := ⟨Word.maximum .i8, 1⟩

/-- On an edge the answer depends on what is tried first: the step to the north is tried
before the one that leads over the right edge, and the one to the south after it. -/
theorem relative_decides_adjacency_rightEdge :
    (¬rightEdge.Overruns aboveRightEdge ∧
      rightEdge.relative aboveRightEdge = .ok (some .north)) ∧
      rightEdge.Overruns belowRightEdge ∧
      rightEdge.relative belowRightEdge = .error .addOverflow := by
  have habove : ¬rightEdge.Overruns aboveRightEdge := by
    unfold Overruns
    decide
  have hbelow : rightEdge.Overruns belowRightEdge := by
    unfold Overruns
    decide
  obtain ⟨-, hdecides, -⟩ := relative_decides_adjacency rightEdge aboveRightEdge
  obtain ⟨hrefused, -, -⟩ := relative_decides_adjacency rightEdge belowRightEdge
  obtain ⟨answer, hanswer, -, hstep⟩ := hdecides habove
  have hnorth : answer = some .north := (hstep .north).mpr (by decide)
  exact ⟨⟨habove, hnorth ▸ hanswer⟩, hbelow, (hrefused _).mpr ⟨rfl, hbelow⟩⟩

def topEdge : Coordinate .i8 := ⟨0, Word.minimum .i8⟩

/-- From the top edge the search is refused at once, also where a later step fits and
leads to the other coordinate. -/
theorem relative_topEdge_refused :
    topEdge.Adjacent ⟨1, Word.minimum .i8⟩ ∧
      topEdge.step .east = .ok ⟨1, Word.minimum .i8⟩ ∧
      topEdge.relative ⟨1, Word.minimum .i8⟩ = .error .addOverflow :=
  ⟨⟨by decide, by decide, by decide⟩, by decide, by decide⟩

end PuzzleKit.Coordinate
