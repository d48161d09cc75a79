import LinearPattern.Match.Verdict
import LinearPattern.Proofs.Machine
import LinearPattern.Proofs.Structure

/-!
# Accepted patterns have room

The check and the run count open blocks in two ways: the check keeps a list of them while it walks
over the pattern, and the run counts down its room while it enters them.  Wherever a run comes to,
the check accepts the rest of the pattern with so many blocks open that those and the room make up
the limit (`Config.Accepted`).  So no block of an accepted pattern is refused for want of room, and
more room changes nothing.

* `Config.Calls`: a block starts an inner run, for the probe of a scan or for an inner block;
* `Config.Reach`: all that a run comes to, in its own block and in inner runs;
* `Config.Refused`: a block that cannot be entered for want of room is tried next;
* `Config.outcome_moreRoom`: a run that comes to no such place does not change with more room.
-/

namespace LinearPattern

namespace Config

variable {hopAt : Bytes → Option Hop} {data : Array UInt8}

section

variable (hopAt data)

/-- A block starts an inner run.  Which positions a scan probes, and how often the body of a block
is run for a `+`, depends on the data; here they may be all positions from the one of the block
on. -/
inductive Calls : Config → Config → Prop
  | probe {room start b rest d ops e} (h : Op.ofByte b = .scan) (hd : d < data.size)
      (ho : ops ≠ some 0) (ht : ¬atBlockEnd (afterRun Byte.scan rest)) (hle : d ≤ e)
      (he : e < data.size) :
      Calls ⟨room, start, b :: rest, d, ops⟩ ⟨room, true, afterRun Byte.scan rest, e, some 1⟩
  | body {inner start b rest d ops e} (h : Op.ofByte b = .group ∨ Op.ofByte b = .option)
      (hd : d < data.size) (ho : ops ≠ some 0) (hle : d ≤ e) (he : e < data.size) :
      Calls ⟨inner + 1, start, b :: rest, d, ops⟩ ⟨inner, true, rest, e, none⟩

/-- All that a run comes to, in its own block and in the inner runs that it starts. -/
inductive Reach : Config → Config → Prop
  | refl (c : Config) : Reach c c
  | step {c c' c'' : Config} (h : Step hopAt data c c') (hr : Reach c' c'') : Reach c c''
  | call {c c' c'' : Config} (h : Calls data c c') (hr : Reach c' c'') : Reach c c''

/-- The run is about to try a block that it has no room for. -/
def Refused (c : Config) : Prop :=
  ∃ b rest, c.place = b :: rest ∧ (Op.ofByte b = .group ∨ Op.ofByte b = .option) ∧ c.room = 0 ∧
    c.pos < data.size ∧ c.ops ≠ some 0

end

/-! ### More room -/

theorem Calls.length_lt {c c' : Config} (h : Calls data c c') :
    c'.place.length < c.place.length := by
  cases h with
  | probe => exact Nat.lt_succ_of_le (afterRun_suffix _ _).length_le
  | body => exact Nat.lt_succ_self _

/-- A run that comes to no block that it refuses ends in the same way with more room. -/
theorem outcome_moreRoom (c : Config) (more : Nat)
    (h : ∀ c', Reach hopAt data c c' → ¬c'.Refused data) :
    (c.setRoom (c.room + more)).outcome hopAt data = c.outcome hopAt data := by
  induction c using Config.induction with
  | h c ih =>
    have hcall : ∀ c', Calls data c c' →
        (c'.setRoom (c'.room + more)).outcome hopAt data = c'.outcome hopAt data := fun c' hc =>
      ih c' hc.length_lt fun c'' hr => h c'' (.call hc hr)
    have hagree : Agree hopAt hopAt data c (c.room + more) := by
      obtain ⟨room, start, place, d, ops⟩ := c
      constructor
      · rintro b rest rfl hs hd ho ht
        exact locate_congr fun e hle he =>
          congrArg Outcome.isFailed (hcall _ (.probe hs hd ho ht hle he))
      · rintro b rest rfl hd ho
        by_cases hop : Op.ofByte b = .group ∨ Op.ofByte b = .option
        · cases room with
          | zero => exact absurd ⟨b, rest, rfl, hop, rfl, hd, ho⟩ (h _ (.refl _))
          | succ inner =>
            -- the body has one block less to enter, with the room that it had and with more
            rw [Nat.add_right_comm]
            exact item_congr (forward_bodyAt _ b rest) hd fun e hle he =>
              hcall _ (.body hop hd ho hle he)
        · obtain ⟨hgroup, hoption⟩ := not_or.mp hop
          exact item_eq_of_single hgroup hoption
    refine outcome_of_agree hagree fun c' hstep => ?_
    rw [← hstep.room_eq]
    exact ih c' hstep.length_lt fun c'' hr => h c'' (.step hstep hr)

/-! ### The room that the check grants -/

/-- The rest of the pattern is accepted with so many blocks open that they and the room make up the
limit. -/
def Accepted (limit total : Nat) (c : Config) : Prop :=
  ∃ opened : List Bytes, limit ≤ opened.length + c.room ∧
    walk limit false total opened c.place = .ok ()

variable {limit total : Nat}

theorem Accepted.step {c c' : Config} (ha : c.Accepted limit total)
    (h : Step hopAt data c c') : c'.Accepted limit total := by
  obtain ⟨opened, hroom, hw⟩ := ha
  cases h with
  | boundary h => exact ⟨opened, hroom, walk_single (.inl h) ▸ hw⟩
  | plus h => exact ⟨opened, hroom, walk_single (.inr (.inl h)) ▸ hw⟩
  | scanNothing h => exact ⟨opened, hroom, walk_afterRun_scan (walk_single (.inr (.inr h)) ▸ hw)⟩
  | scan h => exact ⟨opened, hroom, walk_afterRun_scan (walk_single (.inr (.inr h)) ▸ hw)⟩
  | item h => exact ⟨opened, hroom, walk_afterItem (Op.startsElement_eq_true.mp h).1 hw⟩

/-- An inner block has one block less to enter, and one block more is open. -/
theorem Accepted.call {c c' : Config} (ha : c.Accepted limit total) (h : Calls data c c') :
    c'.Accepted limit total := by
  obtain ⟨opened, hroom, hw⟩ := ha
  cases h with
  | probe h => exact ⟨opened, hroom, walk_afterRun_scan (walk_single (.inr (.inr h)) ▸ hw)⟩
  | @body inner _ b rest _ _ _ h =>
    refine ⟨(b :: rest) :: opened, ?_, (walk_inside h hw).2⟩
    simp only [List.length_cons] at hroom ⊢
    omega

theorem Accepted.reach {c c' : Config} (ha : c.Accepted limit total)
    (h : Reach hopAt data c c') : c'.Accepted limit total := by
  induction h with
  | refl => exact ha
  | step h _ ih => exact ih (ha.step h)
  | call h _ ih => exact ih (ha.call h)

/-- With room for all that the check lets be open, no block is refused. -/
theorem Accepted.not_refused {c : Config} (ha : c.Accepted limit total) : ¬c.Refused data := by
  obtain ⟨opened, hroom, hw⟩ := ha
  rintro ⟨b, rest, hplace, hop, hzero, -, -⟩
  rw [hplace] at hw
  have hlt := (walk_inside hop hw).1
  omega

end Config

/-- A pattern that is accepted is accepted where its match starts. -/
theorem accepted_of_check {limit : Nat} {strict : Bool} {pattern : Bytes}
    (h : check limit strict pattern = .ok ()) {room : Nat} (hroom : limit ≤ room) {start : Bool}
    {d : Nat} {ops : Option Nat} :
    (Config.mk room start pattern d ops).Accepted limit pattern.length :=
  ⟨[], by simpa using hroom, walk_lenient h⟩

/-- A match of a pattern that the check accepts does not change with more room. -/
theorem matchFrom_moreRoom {limit : Nat} {strict : Bool} {pattern : Bytes}
    (h : check limit strict pattern = .ok ()) {limit' : Nat} (hle : limit ≤ limit')
    (maxOps : Option Nat) (data : Array UInt8) (d : Nat) :
    matchFrom { maxOps, nesting := limit' } pattern 0 data d =
      matchFrom { maxOps, nesting := limit } pattern 0 data d := by
  obtain ⟨more, rfl⟩ := Nat.exists_eq_add_of_le hle
  have hblock : block Hop.of? data (limit + more) true pattern (min d data.size) maxOps =
      block Hop.of? data limit true pattern (min d data.size) maxOps :=
    Config.outcome_moreRoom ⟨limit, true, pattern, min d data.size, maxOps⟩ more fun c hr =>
      ((accepted_of_check h (Nat.le_refl limit)).reach hr).not_refused
  have hrun : run Hop.of? { maxOps, nesting := limit + more } pattern data (min d data.size) =
      run Hop.of? { maxOps, nesting := limit } pattern data (min d data.size) := by
    rw [run, run, hblock]
  rw [matchFrom, matchFrom, matchUsing, matchUsing, List.drop_zero, hrun]

/-- **An accepted pattern has room.**  A match of a pattern that the check accepts comes to no block
that it has no room for, and raising the limit does not change its verdict. -/
theorem nesting_of_check {limit : Nat} {strict : Bool} {pattern : Bytes}
    (h : check limit strict pattern = .ok ()) {limit' : Nat} (hle : limit ≤ limit')
    (maxOps : Option Nat) (data : Array UInt8) (d : Nat) :
    matchFrom { maxOps, nesting := limit' } pattern 0 data d =
        matchFrom { maxOps, nesting := limit } pattern 0 data d ∧
      ∀ c, Config.Reach Hop.of? data ⟨limit', true, pattern, min d data.size, maxOps⟩ c →
        ¬c.Refused data :=
  ⟨matchFrom_moreRoom h hle maxOps data d, fun _ hr =>
    ((accepted_of_check h hle).reach hr).not_refused⟩

/-- `~(a]b)[{c` on `xab`: the group is closed by a bracket and the parenthesis closes nothing, the
option and its set are not closed at all.  The body of the group, tried by the probe at position 1,
is one of the places that the run comes to. -/
theorem nesting_of_check_malformed :
    let pattern : Bytes := [126, 40, 97, 93, 98, 41, 91, 123, 99]
    let data : Array UInt8 := #[120, 97, 98]
    (check 1 false pattern = .ok () ∧ 1 ≤ 7) ∧
      matchFrom { maxOps := none, nesting := 7 } pattern 0 data 0 = .matched 6 3 ∧
      ¬(Config.mk 6 true (pattern.drop 2) 1 none).Refused data := by
  intro pattern data
  have hcheck : check 1 false pattern = .ok () := check_eq_ok (by decide +kernel)
  obtain ⟨hmatch, hroom⟩ := nesting_of_check hcheck (by decide : 1 ≤ 7) none data 0
  refine ⟨⟨hcheck, by decide⟩, ?_, ?_⟩
  · rw [hmatch]
    decide +kernel
  · refine hroom _ (.call (.probe rfl (by decide) (by decide) (by decide) (e := 1) ?_ ?_) ?_)
    · decide
    · decide
    · exact .call (.body (.inl rfl) (by decide) (by decide) (Nat.le_refl 1) (by decide)) (.refl _)

end LinearPattern
