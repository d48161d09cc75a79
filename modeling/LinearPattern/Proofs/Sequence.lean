import LinearPattern.Matcher.Sequence

/-!
# Sequences of matches

A sequence of matches takes the data from its start on without a gap: each match starts where the
one before ended.  It goes on for as long as a match takes something and there is data left.

* `Matches.after`, `Matches.answer`: the sequence behind some calls, and the answer of a call;
* `Matches.answer_eq`: the calls give the matches of the sequence, and then nothing any more;
* `Chain`: matches one behind the other from a position on, up to the reason why they end;
* `Matches.chain`: the matches of a sequence are such a chain, since a match never goes backwards
  and never leaves the data;
* `Tiling`, `Matcher.findAll_tiling`: what this says of the matches from the start of the data.
-/

namespace LinearPattern

namespace Matches

/-! ### Call after call -/

/-- The sequence behind `n` calls. -/
def after (it : Matches) : Nat → Matches
  | 0 => it
  | n + 1 => it.next.2.after n

/-- The answer of a call with `n` calls before it. -/
def answer (it : Matches) (n : Nat) : Option Match := (it.after n).next.1

variable {it : Matches} {x : Match}

/-- All that a call can do: no match comes any more, the matcher has none here, or there is one and
the sequence goes on behind it. -/
theorem next_cases (it : Matches) :
    ((it.done ∨ it.data.size ≤ it.start) ∧ it.next = (none, it)) ∨
    (it.done = false ∧ it.start < it.data.size ∧ it.matcher.matchAt? it.data it.start = none ∧
      it.next = (none, { it with done := true })) ∨
    ∃ x, it.done = false ∧ it.start < it.data.size ∧
      it.matcher.matchAt? it.data it.start = some x ∧
      it.next = (some x, { it with start := x.stop, done := x.isEmpty }) := by
  unfold next
  by_cases hend : it.done ∨ it.data.size ≤ it.start
  · exact .inl ⟨hend, if_pos hend⟩
  · rw [if_neg hend]
    rw [not_or, Bool.not_eq_true, Nat.not_le] at hend
    cases hx : it.matcher.matchAt? it.data it.start with
    | none => exact .inr (.inl ⟨hend.1, hend.2, rfl, rfl⟩)
    | some x => exact .inr (.inr ⟨x, hend.1, hend.2, rfl, rfl⟩)

/-- A sequence that has come to its end stays there. -/
theorem next_next_of_none (h : it.next.1 = none) : it.next.2.next.1 = none := by
  rcases it.next_cases with ⟨-, hnext⟩ | ⟨-, -, -, hnext⟩ | ⟨x, -, -, -, hnext⟩
  · have hsame : it.next.2 = it := by rw [hnext]
    rwa [hsame]
  · rw [hnext, next, if_pos (.inl rfl)]
  · rw [hnext] at h
    cases h

theorem toList_of_none (h : it.next.1 = none) : it.toList = [] := by
  rw [toList, trail, if_neg (by rw [h]; exact Bool.false_ne_true)]
  simp [h]

theorem toList_of_some (h : it.next.1 = some x) : it.toList = x :: it.next.2.toList := by
  rw [toList, trail, if_pos (by rw [h]; rfl)]
  simp [h, toList]

/-- The calls give the matches of the sequence one after the other, and nothing behind them. -/
theorem answer_eq (it : Matches) (n : Nat) : it.answer n = it.toList[n]? := by
  induction n generalizing it with
  | zero =>
    show it.next.1 = _
    cases h : it.next.1 with
    | none => rw [toList_of_none h]; rfl
    | some x => rw [toList_of_some h]; rfl
  | succ n ih =>
    show it.next.2.answer n = _
    rw [ih]
    cases h : it.next.1 with
    | none => rw [toList_of_none h, toList_of_none (next_next_of_none h)]; rfl
    | some x => rw [toList_of_some h, List.getElem?_cons_succ]

end Matches

/-! ### Chains -/

/-- Matches one behind the other, the first of them at `start`.  The chain ends behind a match that
takes nothing, at the end of the data, or where the matcher has no match. -/
inductive Chain (m : Matcher) (data : Array UInt8) : Nat → List Match → Prop
  | ended {start} (h : start = data.size ∨ m.matchAt? data start = none) : Chain m data start []
  | last {start x} (hlt : start < data.size) (hx : m.matchAt? data start = some x)
      (he : x.start = x.stop) : Chain m data start [x]
  | cons {start x ms} (hlt : start < data.size) (hx : m.matchAt? data start = some x)
      (he : x.start ≠ x.stop) (h : Chain m data x.stop ms) : Chain m data start (x :: ms)

/-- The matches of a sequence that goes on are a chain. -/
theorem Matches.chain (it : Matches) (hdone : it.done = false) (hstart : it.start ≤ it.data.size) :
    Chain it.matcher it.data it.start it.toList := by
  rcases it.next_cases with ⟨hend, hnext⟩ | ⟨-, -, hx, hnext⟩ | ⟨x, -, hlt, hx, hnext⟩
  · rw [toList_of_none (by rw [hnext])]
    rw [hdone, or_iff_right Bool.false_ne_true] at hend
    exact .ended (.inl (Nat.le_antisymm hstart hend))
  · rw [toList_of_none (by rw [hnext])]
    exact .ended (.inr hx)
  · obtain ⟨-, -, -, hstop⟩ := Matcher.matchAt?_between hx
    have hsome : it.next.1 = some x := by rw [hnext]
    rw [toList_of_some hsome]
    by_cases he : x.start = x.stop
    · -- a match that takes nothing is the last one
      have hlast : it.next.2.next.1 = none := by
        rw [hnext, next, if_pos (.inl (beq_iff_eq.mpr he))]
      rw [toList_of_none hlast]
      exact .last hlt hx he
    · have hrest := it.next.2.chain (by rw [hnext]; exact beq_eq_false_iff_ne.mpr he)
        (by rw [hnext]; exact hstop)
      rw [hnext] at hrest ⊢
      exact .cons hlt hx he hrest
termination_by it.remaining
decreasing_by exact remaining_lt (by rw [hsome]; rfl)

/-- Where matches that follow each other from `start` on end. -/
def endFrom (start : Nat) (ms : List Match) : Nat := ms.getLast?.elim start Match.stop

@[simp] theorem endFrom_nil (start : Nat) : endFrom start [] = start := rfl

@[simp] theorem endFrom_cons (start : Nat) (x : Match) (ms : List Match) :
    endFrom start (x :: ms) = endFrom x.stop ms := by
  cases ms with
  | nil => rfl
  | cons y ms => simp [endFrom, List.getLast?_cons]

namespace Chain

variable {m : Matcher} {data : Array UInt8} {start : Nat} {ms : List Match}

theorem head_start (h : Chain m data start ms) {x : Match} (hx : ms.head? = some x) :
    x.start = start := by
  cases h with
  | ended => cases hx
  | last _ hm =>
    cases hx
    exact (Matcher.matchAt?_between hm).2.1
  | cons _ hm =>
    cases hx
    exact (Matcher.matchAt?_between hm).2.1

theorem matchAt (h : Chain m data start ms) {x : Match} (hx : x ∈ ms) :
    x.start < data.size ∧ m.matchAt? data x.start = some x := by
  induction h with
  | ended => cases hx
  | last hlt hm =>
    obtain rfl := List.mem_singleton.mp hx
    obtain ⟨-, heq, -⟩ := Matcher.matchAt?_between hm
    rw [heq]
    exact ⟨hlt, hm⟩
  | cons hlt hm _ _ ih =>
    rcases List.mem_cons.mp hx with rfl | hx
    · obtain ⟨-, heq, -⟩ := Matcher.matchAt?_between hm
      rw [heq]
      exact ⟨hlt, hm⟩
    · exact ih hx

/-- A match with another one behind it takes something, and the other starts where it ends. -/
theorem adjacent (h : Chain m data start ms) {i : Nat} {x y : Match} (hx : ms[i]? = some x)
    (hy : ms[i + 1]? = some y) : x.start < x.stop ∧ y.start = x.stop := by
  induction h generalizing i with
  | ended => cases hx
  | last => cases hy
  | @cons start z ms _ hm he h ih =>
    cases i with
    | zero =>
      obtain rfl := Option.some.inj hx
      obtain ⟨-, hz, hle, -⟩ := Matcher.matchAt?_between hm
      have hpos : z.start < z.stop := Nat.lt_of_le_of_ne (hz ▸ hle) he
      rw [List.getElem?_cons_succ, ← List.head?_eq_getElem?] at hy
      exact ⟨hpos, h.head_start hy⟩
    | succ i => exact ih hx hy

/-- Every match but the last takes a byte, and the last one has a byte behind it. -/
theorem length_le (h : Chain m data start ms) (hstart : start ≤ data.size) :
    start + ms.length ≤ data.size := by
  induction h with
  | ended => exact hstart
  | last hlt => exact hlt
  | @cons start x ms _ hm he _ ih =>
    obtain ⟨-, hx, hle, hstop⟩ := Matcher.matchAt?_between hm
    have hrest := ih hstop
    rw [List.length_cons]
    omega

theorem le_endFrom (h : Chain m data start ms) : start ≤ endFrom start ms := by
  induction h with
  | ended => exact Nat.le_refl _
  | last _ hm => exact (Matcher.matchAt?_between hm).2.2.1
  | cons _ hm _ _ ih =>
    rw [endFrom_cons]
    exact Nat.le_trans (Matcher.matchAt?_between hm).2.2.1 ih

/-- Neither is a byte lost between the matches, nor taken twice. -/
theorem flatMap_bytes (h : Chain m data start ms) :
    ms.flatMap (·.bytes.toList) = (data.extract start (endFrom start ms)).toList := by
  induction h with
  | ended => simp
  | last _ hm =>
    obtain ⟨hdata, hx, -⟩ := Matcher.matchAt?_between hm
    simp [Match.bytes, hdata, hx]
  | @cons start x ms _ hm _ h ih =>
    obtain ⟨hdata, hx, hle, -⟩ := Matcher.matchAt?_between hm
    have hjoin : data.extract start x.stop ++ data.extract x.stop (endFrom x.stop ms) =
        data.extract start (endFrom x.stop ms) := by
      rw [Array.extract_append_extract, Nat.min_eq_left hle, Nat.max_eq_right h.le_endFrom]
    rw [List.flatMap_cons, ih, endFrom_cons, Match.bytes, hdata, hx, ← Array.toList_append, hjoin]

/-- The chain ends behind a match that takes nothing, at the end of the data, or in front of a
mismatch. -/
theorem stops (h : Chain m data start ms) :
    (∃ x, ms.getLast? = some x ∧ x.start = x.stop) ∨ endFrom start ms = data.size ∨
      m.matchAt? data (endFrom start ms) = none := by
  induction h with
  | ended h => exact .inr h
  | last _ _ he => exact .inl ⟨_, rfl, he⟩
  | @cons start x ms _ _ _ _ ih =>
    rw [endFrom_cons]
    refine ih.imp_left fun ⟨y, hy, he⟩ => ⟨y, ?_, he⟩
    rw [List.getLast?_cons, hy, Option.getD_some]

end Chain

/-! ### The matches of the whole data -/

/-- Matches of a matcher that take the data from its start on without a gap. -/
structure Tiling (m : Matcher) (data : Array UInt8) (ms : List Match) : Prop where
  /-- There are no more of them than there are bytes. -/
  length_le : ms.length ≤ data.size
  /-- The first one starts at the start of the data. -/
  head_start : ∀ x, ms.head? = some x → x.start = 0
  /-- Each of them is the match at its start, which is in front of the end of the data. -/
  matchAt : ∀ x ∈ ms, x.start < data.size ∧ m.matchAt? data x.start = some x
  /-- One that has another one behind it takes something, and the other starts where it ends. -/
  adjacent : ∀ i x y, ms[i]? = some x → ms[i + 1]? = some y → x.start < x.stop ∧ y.start = x.stop
  /-- What they take is the data up to the end of the last one. -/
  bytes_eq : ms.flatMap (·.bytes.toList) = (data.extract 0 (endFrom 0 ms)).toList
  /-- The last one takes nothing, or no data is left, or there is no match behind it. -/
  stops : (∃ x, ms.getLast? = some x ∧ x.start = x.stop) ∨ endFrom 0 ms = data.size ∨
    m.matchAt? data (endFrom 0 ms) = none

/-- **The matches of a matcher take the data without a gap.**  The calls give them one after the
other, and nothing any more behind the last one; and they end only behind a match that takes
nothing, at the end of the data or at a mismatch. -/
theorem Matcher.findAll_tiling (m : Matcher) (data : Array UInt8) :
    (∀ n, (m.findAll data).answer n = (m.findAll data).toList[n]?) ∧
      Tiling m data (m.findAll data).toList := by
  have h : Chain m data 0 (m.findAll data).toList :=
    (m.findAll data).chain rfl (Nat.zero_le _)
  have hlength := h.length_le (Nat.zero_le _)
  rw [Nat.zero_add] at hlength
  exact ⟨(m.findAll data).answer_eq, hlength, fun _ => h.head_start, fun _ => h.matchAt,
    fun _ _ _ => h.adjacent, h.flatMap_bytes, h.stops⟩

/-- `[a]` on `aab` takes a byte twice, and nothing in front of the `b`. -/
example :
    let m : Matcher := { pattern := [91, 97, 93], bounds := {} }
    (m.findAll #[97, 97, 98]).toList.map (fun x => (x.start, x.stop)) =
      [(0, 1), (1, 2), (2, 2)] := by
  decide +kernel

end LinearPattern
