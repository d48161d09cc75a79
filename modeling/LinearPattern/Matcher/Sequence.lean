import LinearPattern.Matcher.Basic
import LinearPattern.Proofs.Verdict

/-!
# Sequences of matches

Matches one behind the other, each from the end of the one before.  A sequence stops at the first
mismatch, at the end of the data, and behind a match that takes nothing.  A match never goes
backwards (`Matcher.matchAt?_between`), so a sequence is finite (`Matches.remaining_lt`).

* `Matches`, `Matches.next`: a sequence, and its next match;
* `Matches.trail`, `Matches.toList`: what is still to come;
* `Matcher.findAll`: the sequence from the start of the data.
-/

namespace LinearPattern

/-- A match starts where it is asked for, goes forwards, and stays in the data. -/
theorem Matcher.matchAt?_between {m : Matcher} {data : Array UInt8} {start : Nat} {x : Match}
    (h : m.matchAt? data start = some x) :
    x.data = data ∧ x.start = start ∧ start ≤ x.stop ∧ x.stop ≤ data.size := by
  unfold matchAt? exec at h
  split at h
  · cases h
  · cases h
  · next pn stop hexec =>
    split at hexec
    · cases hexec
    · next hstart =>
      obtain ⟨-, -, hle, hstop⟩ := matchUsing_matched (Except.ok.inj hexec)
      cases h
      rw [Nat.min_eq_left (Nat.le_of_not_lt hstart)] at hle
      exact ⟨rfl, rfl, hle, hstop⟩

/-- The matches that are still to come, each from the end of the one before. -/
structure Matches where
  matcher : Matcher
  data : Array UInt8
  /-- Where the next match starts. -/
  start : Nat := 0
  /-- No match comes any more. -/
  done : Bool := false

namespace Matches

/-- The next match, and the matches behind it. -/
def next (it : Matches) : Option Match × Matches :=
  if it.done ∨ it.data.size ≤ it.start then (none, it)
  else
    match it.matcher.matchAt? it.data it.start with
    | none => (none, { it with done := true })
    | some m => (some m, { it with start := m.stop, done := m.isEmpty })

/-- A bound on the number of matches still to come. -/
def remaining (it : Matches) : Nat := if it.done then 0 else it.data.size + 1 - it.start

/-- Every match leaves fewer matches to come. -/
theorem remaining_lt {it : Matches} (h : it.next.1.isSome) :
    it.next.2.remaining < it.remaining := by
  unfold next at h ⊢
  split at h
  · simp at h
  · next hgo =>
    rw [not_or, Bool.not_eq_true, Nat.not_le] at hgo
    split at h
    · simp at h
    · next m hm =>
      obtain ⟨-, hstart, hle, -⟩ := Matcher.matchAt?_between hm
      simp only [hgo.1, Bool.false_eq_true, Nat.not_le.mpr hgo.2, or_self, if_false, remaining,
        Match.isEmpty, hstart, beq_iff_eq]
      split
      · omega
      · omega

/-- The sequence at each match to come, with the end of the sequence last. -/
def trail (it : Matches) : List Matches :=
  if it.next.1.isSome then it :: it.next.2.trail else [it]
termination_by it.remaining
decreasing_by exact remaining_lt (by assumption)

/-- All matches still to come. -/
def toList (it : Matches) : List Match := it.trail.filterMap (·.next.1)

end Matches

/-- The matches of a matcher, one behind the other, from the start of the data. -/
def Matcher.findAll (m : Matcher) (data : Array UInt8) : Matches := { matcher := m, data }

end LinearPattern
