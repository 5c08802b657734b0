import PuzzleKit.Proofs.Geometry.Coordinate
import PuzzleKit.Proofs.Integer.Numeral
import PuzzleKit.Proofs.Sequence.Split
import PuzzleKit.Proofs.Text.Blank

/-!
# The texts of points

A text is a point of a dimension if there are as many pieces between its commas, and
each piece is a numeral of the width with blanks around it or none (`IsComponent`). A
numeral has no blanks of its own, so it is what trimming leaves of the piece, and its
word is the only one that the piece can stand for.

A coordinate is read from the same texts as a point of two components. The two ways of
reading differ only in what they complain about when a text has the wrong number of
pieces and also a piece that is no numeral: a point complains about the piece, since all
pieces are read before they are counted, and a coordinate about the number.
-/

namespace PuzzleKit

variable {w : Width} {a : Word w} {piece left right text : List Char}
  {pieces : List (List Char)} {e : PointTextError}

/-- A piece between two commas that stands for a word: a numeral, blanks aside. -/
def IsComponent (piece : List Char) (a : Word w) : Prop :=
  ∃ numeral, Text.Padded numeral piece ∧ Numeral.Denotes w.signed numeral a.val

theorem parseComponent_eq_ok_iff : parseComponent w piece = .ok a ↔ IsComponent piece a := by
  have hparse : parseComponent w piece = .ok a ↔ Word.parse w (Text.trim piece) = .ok a := by
    unfold parseComponent
    cases Word.parse w (Text.trim piece) <;> simp
  rw [hparse, Word.parse_eq_ok_iff_denotes]
  constructor
  · intro h
    exact ⟨Text.trim piece, Text.padded_trim piece, h⟩
  · intro h
    obtain ⟨numeral, hpadded, hnumeral⟩ := h
    rw [Text.trim_eq_of_padded hpadded hnumeral.not_isBlank]
    exact hnumeral

/-- What is complained about is the piece without the blanks around it. -/
theorem parseComponent_eq_error_iff : parseComponent w piece = .error e ↔
    e = .invalidComponent (Text.trim piece) ∧ ∀ a : Word w, ¬IsComponent piece a := by
  simp only [← parseComponent_eq_ok_iff]
  unfold parseComponent
  cases Word.parse w (Text.trim piece) with
  | ok a => simp
  | error cause => simp [eq_comm]

namespace Point

variable {d : Nat}

/-- Why pieces are no point: one of them is no component, and then it is the first such
one that is reported, or all of them are and their number is wrong. -/
inductive Misread (w : Width) (d : Nat) : List (List Char) → PointTextError → Prop
  | component {before after : List (List Char)} {piece : List Char}
    (hbefore : ∀ earlier ∈ before, ∃ a : Word w, IsComponent earlier a)
    (hpiece : ∀ a : Word w, ¬IsComponent piece a) :
    Misread w d (before ++ piece :: after) (.invalidComponent (Text.trim piece))
  | count {pieces : List (List Char)}
    (hpieces : ∀ piece ∈ pieces, ∃ a : Word w, IsComponent piece a) (hne : pieces.length ≠ d) :
    Misread w d pieces (.componentCount d pieces.length)

theorem mapM_parseComponent_eq_ok_iff {components : List (Word w)} :
    pieces.mapM (parseComponent w) = .ok components ↔
      List.Forall₂ IsComponent pieces components := by
  rw [mapM_eq_ok_iff_forall₂]
  simp only [parseComponent_eq_ok_iff]

theorem exists_mapM_parseComponent_iff :
    (∃ components, pieces.mapM (parseComponent w) = .ok components) ↔
      ∀ piece ∈ pieces, ∃ a : Word w, IsComponent piece a := by
  rw [exists_mapM_eq_ok_iff]
  simp only [parseComponent_eq_ok_iff]

theorem mapM_parseComponent_eq_error_iff :
    pieces.mapM (parseComponent w) = .error e ↔ ∃ before piece after,
      pieces = before ++ piece :: after ∧
        (∀ earlier ∈ before, ∃ a : Word w, IsComponent earlier a) ∧
        e = .invalidComponent (Text.trim piece) ∧ ∀ a : Word w, ¬IsComponent piece a := by
  rw [mapM_eq_error_iff]
  simp only [parseComponent_eq_ok_iff, parseComponent_eq_error_iff]

theorem parse_eq_ok_iff {p : Point w d} : parse w d text = .ok p ↔
    List.Forall₂ IsComponent (text.splitOn ',') p.toList := by
  rw [← mapM_parseComponent_eq_ok_iff, parse, splitAtElement_eq_splitOn, bind_eq_ok_iff]
  constructor
  · intro h
    obtain ⟨components, hcomponents, h⟩ := h
    split at h
    · cases h
      exact hcomponents
    · cases h
  · intro h
    refine ⟨p.toList, h, ?_⟩
    rw [dif_pos p.length_toList]
    rfl

theorem parse_eq_error_iff :
    parse w d text = .error e ↔ Misread w d (text.splitOn ',') e := by
  rw [parse, splitAtElement_eq_splitOn, bind_eq_error_iff, mapM_parseComponent_eq_error_iff]
  generalize text.splitOn ',' = pieces
  constructor
  · rintro (⟨before, piece, after, rfl, hbefore, rfl, hpiece⟩ | ⟨components, hcomponents, h⟩)
    · exact .component hbefore hpiece
    · have hlength := (mapM_parseComponent_eq_ok_iff.mp hcomponents).length_eq
      split at h
      · cases h
      · next hne =>
          cases h
          rw [← hlength] at hne ⊢
          exact .count (exists_mapM_parseComponent_iff.mp ⟨components, hcomponents⟩) hne
  · intro h
    cases h with
    | component hbefore hpiece => exact .inl ⟨_, _, _, rfl, hbefore, rfl, hpiece⟩
    | count hpieces hne =>
        obtain ⟨components, hcomponents⟩ := exists_mapM_parseComponent_iff.mpr hpieces
        have hlength := (mapM_parseComponent_eq_ok_iff.mp hcomponents).length_eq
        refine .inr ⟨components, hcomponents, ?_⟩
        rw [dif_neg (hlength ▸ hne), hlength]

end Point

namespace Coordinate

/-- Two pieces are read alike as a point and as a coordinate. -/
theorem parse_of_two (h : text.splitOn ',' = [left, right]) :
    Point.parse w 2 text = (Coordinate.parse w text).map toPoint := by
  simp only [Point.parse, Coordinate.parse, splitAtElement_eq_splitOn, h, ofList, List.mapM_cons,
    List.mapM_nil, bind, Except.bind]
  cases parseComponent w left with
  | error e => rfl
  | ok x => cases parseComponent w right <;> rfl

theorem parse_of_length_ne (h : (text.splitOn ',').length ≠ 2) :
    Coordinate.parse w text = .error (.componentCount 2 (text.splitOn ',').length) := by
  rw [Coordinate.parse, splitAtElement_eq_splitOn]
  unfold ofList
  split
  · next hpieces => exact absurd (congrArg List.length hpieces) h
  · rfl

theorem parse_eq_ok_iff {c : Coordinate w} :
    Coordinate.parse w text = .ok c ↔ Point.parse w 2 text = .ok c.toPoint := by
  by_cases hlength : (text.splitOn ',').length = 2
  · obtain ⟨left, right, hpieces⟩ := List.length_eq_two.mp hlength
    rw [parse_of_two hpieces]
    cases Coordinate.parse w text with
    | error e => exact ⟨(nomatch ·), (nomatch ·)⟩
    | ok b =>
        rw [Except.map, Except.ok.injEq, Except.ok.injEq]
        exact ⟨congrArg toPoint, eq_of_toPoint_eq⟩
  · rw [parse_of_length_ne hlength]
    refine ⟨(nomatch ·), fun h => absurd ?_ hlength⟩
    have hpieces := (Point.parse_eq_ok_iff.mp h).length_eq
    rw [hpieces]
    exact Vector.length_toList

theorem parse_eq_error_iff : Coordinate.parse w text = .error e ↔
    if (text.splitOn ',').length = 2 then Point.parse w 2 text = .error e
    else e = .componentCount 2 (text.splitOn ',').length := by
  split
  · next hlength =>
      obtain ⟨left, right, hpieces⟩ := List.length_eq_two.mp hlength
      rw [parse_of_two hpieces]
      cases Coordinate.parse w text with
      | error e' => simp [Except.map]
      | ok c => exact ⟨(nomatch ·), (nomatch ·)⟩
  · next hlength =>
      rw [parse_of_length_ne hlength, Except.error.injEq, eq_comm]

end Coordinate

/-- The texts of points are those whose pieces between commas are the numerals of the
components. A coordinate is read from the texts of points of two components, and what is
wrong with another text is reported for its number of pieces first. -/
theorem Point.parse_reads_components (text : List Char) (d : Nat) :
    (∀ p : Point w d, Point.parse w d text = .ok p ↔
        List.Forall₂ IsComponent (text.splitOn ',') p.toList) ∧
      (∀ e, Point.parse w d text = .error e ↔ Misread w d (text.splitOn ',') e) ∧
      (∀ c : Coordinate w, Coordinate.parse w text = .ok c ↔ Point.parse w 2 text = .ok c.toPoint) ∧
      ∀ e, Coordinate.parse w text = .error e ↔
        if (text.splitOn ',').length = 2 then Point.parse w 2 text = .error e
        else e = .componentCount 2 (text.splitOn ',').length :=
  ⟨fun _ => parse_eq_ok_iff, fun _ => parse_eq_error_iff, fun _ => Coordinate.parse_eq_ok_iff,
    fun _ => Coordinate.parse_eq_error_iff⟩

end PuzzleKit
