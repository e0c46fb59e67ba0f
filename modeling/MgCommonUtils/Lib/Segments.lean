import Mathlib.Data.List.Basic

/-!
# Places in a sequence of segments

A sequence that is kept in segments, as a log is kept in files. A place is a segment and an index in
it, and what comes from there on is the rest of the segment and the segments that follow. Two
places that are not at the start of their segments and have the same rest are the same
(`Place.eq_of_rest`).
-/

namespace MgCommonUtils.Lib

variable {S E : Type*}

/-- A place between two elements of one of the segments. -/
structure Place (items : S → List E) (segs : List S) where
  /-- The segments before. -/
  before : List S
  /-- The segment. -/
  seg : S
  /-- The segments that follow. -/
  after : List S
  /-- The number of elements of the segment that are before the place. -/
  idx : ℕ
  /-- The segment is one of the segments. -/
  split : segs = before ++ seg :: after
  /-- The index is in the segment. -/
  le : idx ≤ (items seg).length

namespace Place

variable {items : S → List E} {segs : List S}

/-- What comes from the place on. -/
def rest (p : Place items segs) : List E := (items p.seg).drop p.idx ++ p.after.flatMap items

/-- The elements before the place, and those from there on, are all. -/
theorem length_rest (p : Place items segs) :
    (p.before.flatMap items).length + p.idx + p.rest.length = (segs.flatMap items).length := by
  have hle := p.le
  have hall := congrArg (fun l => (l.flatMap items).length) p.split
  simp only [List.flatMap_append, List.flatMap_cons, List.length_append] at hall
  rw [rest, List.length_append, List.length_drop]
  omega

/-- A place in an earlier segment has more elements from there on. -/
theorem length_rest_lt {p q : Place items segs} (hq : 0 < q.idx)
    (h : p.before.length < q.before.length) : q.rest.length < p.rest.length := by
  have hsplit := p.split.symm.trans q.split
  obtain ⟨more, hmore⟩ : ∃ more, q.before = p.before ++ p.seg :: more := by
    rcases List.append_eq_append_iff.mp hsplit with ⟨a, hbefore, ha⟩ | ⟨a, hbefore, ha⟩
    · cases a with
      | nil =>
        rw [hbefore, List.append_nil] at h
        exact absurd h (Nat.lt_irrefl _)
      | cons s a =>
        obtain ⟨rfl, -⟩ := List.cons.inj ha
        exact ⟨a, hbefore⟩
    · rw [hbefore, List.length_append] at h
      omega
  have hp := p.length_rest
  have hlen := q.length_rest
  have hle := p.le
  rw [hmore, List.flatMap_append, List.flatMap_cons, List.length_append, List.length_append] at hlen
  omega

/-- A place that is not at the start of a segment is determined by what comes from there on. -/
theorem eq_of_rest {p q : Place items segs} (hp : 0 < p.idx) (hq : 0 < q.idx)
    (h : p.rest = q.rest) : p.seg = q.seg ∧ p.idx = q.idx := by
  have hlen : p.rest.length = q.rest.length := congrArg List.length h
  have hbefore : p.before.length = q.before.length := by
    rcases Nat.lt_trichotomy p.before.length q.before.length with hlt | heq | hlt
    · exact absurd hlen (Nat.ne_of_gt (length_rest_lt hq hlt))
    · exact heq
    · exact absurd hlen (Nat.ne_of_lt (length_rest_lt hp hlt))
  obtain ⟨heq, htail⟩ := List.append_inj (p.split.symm.trans q.split) hbefore
  refine ⟨(List.cons.inj htail).1, ?_⟩
  have h₁ := p.length_rest
  have h₂ := q.length_rest
  rw [heq] at h₁
  omega

end Place

end MgCommonUtils.Lib
