import LinearPattern.Proofs.Nesting
import LinearPattern.Session

/-!
# Where the matchers of a session come from

A session makes builders and matchers under one name after the other, while it goes on changing the
limits for new ones.  What a matcher is can be read off the steps that came before it, without the
states in between: its pattern and the limits of the time at which its builder was made, and the
bounds that this builder has been given since then.

* `limitsAfter`: the limits behind some steps;
* `Origin`, `Origin.bounds`: how a builder was made, and the bounds that it has by that;
* `builderOrigin?`, `matcherOrigin?`, `sequenceOrigin?`: the origin of what is under a name;
* `Session.after`, `Session.Recorded`: a run of a session, and what the steps of it tell about all
  that it holds;
* `Session.runsAs_of_after`: every matcher of every run has been checked, and runs as its origin
  says.

The steps of a run are listed latest first here, as a record `past` of them.
-/

namespace LinearPattern

/-! ### Reading a record -/

namespace Step

/-- The nesting for new matchers that a step sets. -/
def globalNesting? : Step → Option Nat
  | setNesting n => some n
  | _ => none

/-- The number of items for new matchers that a step sets. -/
def globalOps? : Step → Option Nat
  | setOps n => some n
  | _ => none

/-- The nesting that a step gives to a builder. -/
def ownNesting? : Step → Option Nat
  | builderNesting _ n => some n
  | _ => none

/-- The number of items that a step gives to a builder. -/
def ownOps? : Step → Option Nat
  | builderOps _ n => some n
  | _ => none

/-- The step asks for something and leaves the session as it is. -/
def isQuery : Step → Bool
  | getLimits => true
  | getBounds => true
  | matchFrom .. => true
  | matchOps .. => true
  | getPattern _ => true
  | display _ => true
  | exec .. => true
  | matchAt .. => true
  | isMatch .. => true
  | report .. => true
  | _ => false

end Step

/-- The limits behind the steps of a record: the ones that were set last. -/
def limitsAfter (past : List Step) : Limits where
  nesting := (past.findSome? Step.globalNesting?).getD 256
  ops := (past.findSome? Step.globalOps?).getD 0

/-- How a builder was made, or a matcher that needs none. -/
structure Origin where
  pattern : Bytes
  /-- The steps before it was made. -/
  before : List Step
  /-- The steps that have given it bounds of its own since then. -/
  settings : List Step := []

namespace Origin

/-- The bounds of a match: the ones given last, and the limits of the time where none were given.
Of the items, 0 is no bound. -/
def bounds (o : Origin) : Bounds where
  maxOps :=
    match (o.settings.findSome? Step.ownOps?).getD (limitsAfter o.before).ops with
    | 0 => none
    | n + 1 => some (n + 1)
  nesting := (o.settings.findSome? Step.ownNesting?).getD (limitsAfter o.before).nesting

/-- The same origin with one more step that gives bounds. -/
def give (step : Step) (o : Origin) : Origin := { o with settings := step :: o.settings }

end Origin

/-- The origin of the builder under a name.  A builder that is built is given up. -/
def builderOrigin? (name : String) : List Step → Option Origin
  | [] => none
  | step :: past =>
    match step with
    | .newBuilder other pattern =>
      if other = name then some { pattern, before := past } else builderOrigin? name past
    | .builderOps other _ =>
      if other = name then (builderOrigin? name past).map (Origin.give step)
      else builderOrigin? name past
    | .builderNesting other _ =>
      if other = name then (builderOrigin? name past).map (Origin.give step)
      else builderOrigin? name past
    | .build other _ => if other = name then none else builderOrigin? name past
    | _ => builderOrigin? name past

/-- The origin of the matcher under a name. -/
def matcherOrigin? (name : String) : List Step → Option Origin
  | [] => none
  | step :: past =>
    match step with
    | .newMatcher other pattern =>
      if other = name then some { pattern, before := past } else matcherOrigin? name past
    | .newLiteral other literal =>
      if other = name then some { pattern := literalPattern literal, before := past }
      else matcherOrigin? name past
    | .copyMatcher source other =>
      if other = name then matcherOrigin? source past else matcherOrigin? name past
    | .build builder other =>
      if other = name then builderOrigin? builder past else matcherOrigin? name past
    | _ => matcherOrigin? name past

/-- The origin of the matcher of the sequence under a name. -/
def sequenceOrigin? (name : String) : List Step → Option Origin
  | [] => none
  | step :: past =>
    match step with
    | .findAll source _ other =>
      if other = name then matcherOrigin? source past else sequenceOrigin? name past
    | _ => sequenceOrigin? name past

/-! ### Matchers and their origins -/

/-- A literal needs no check, since every check accepts its pattern. -/
theorem check_literalPattern (limit : Nat) (strict : Bool) (literal : Bytes) :
    check limit strict (literalPattern literal) = .ok () := by
  have hwalk : ∀ total, walk limit strict total [] (literalPattern literal) = .ok () := by
    intro total
    induction literal with
    | nil => exact walk_nil_eq_ok.mpr (.inr rfl)
    | cons b literal ih =>
      rw [literalPattern, List.flatMap_cons, literalByte]
      split
      · rwa [List.cons_append, walk_escape rfl]
      · next hplain =>
        have hop := Op.ofByte_of_not_isOperator (Bool.not_eq_true _ ▸ hplain)
        rwa [List.cons_append, walk_plain (by simp [hop]) (by simp [hop]) (by simp [hop])
          (by simp [hop]) (by simp [hop])]
  exact hwalk _

/-- A builder has the pattern and the bounds of this origin. -/
structure Builder.StemsFrom (b : Builder) (o : Origin) : Prop where
  pattern_eq : b.pattern = o.pattern
  bounds_eq : b.bounds = o.bounds

/-- A matcher has the pattern and the bounds of this origin, and a check accepts them. -/
structure Matcher.StemsFrom (m : Matcher) (o : Origin) : Prop where
  pattern_eq : m.pattern = o.pattern
  bounds_eq : m.bounds = o.bounds
  accepted : check m.bounds.nesting false m.pattern = .ok ()

/-- The matches of a matcher are those of the pattern of this origin under its bounds, and would be
the same with more nesting. -/
structure Matcher.RunsAs (m : Matcher) (o : Origin) : Prop extends m.StemsFrom o where
  exec_eq : ∀ (data : Array UInt8) (start : Nat), start ≤ data.size →
    m.exec data start = .ok (matchFrom o.bounds o.pattern 0 data start)
  moreNesting : ∀ (nesting : Nat), o.bounds.nesting ≤ nesting →
    ∀ (data : Array UInt8) (start : Nat),
      matchFrom { o.bounds with nesting } o.pattern 0 data start =
        matchFrom o.bounds o.pattern 0 data start

/-- A number of items is a bound, but for 0. -/
theorem opsBound_eq (n : Nat) : opsBound n = match n with
    | 0 => none
    | n + 1 => some (n + 1) := by
  cases n with
  | zero => exact if_pos rfl
  | succ n => exact if_neg (Nat.succ_ne_zero n)

section

variable {b : Builder} {m : Matcher} {o : Origin}

/-- Where nothing has been given, the bounds are those under the limits of the time. -/
theorem bounds_limitsAfter (pattern : Bytes) (past : List Step) :
    (limitsAfter past).bounds = ({ pattern, before := past } : Origin).bounds := by
  rw [Limits.bounds, opsBound_eq]
  rfl

theorem Builder.StemsFrom.ofPattern (pattern : Bytes) (past : List Step) :
    (Builder.ofPattern (limitsAfter past) pattern).StemsFrom { pattern, before := past } :=
  ⟨rfl, bounds_limitsAfter pattern past⟩

theorem Builder.StemsFrom.setMaxOps (h : b.StemsFrom o) (name : String) (n : Nat) :
    (b.setMaxOps n).StemsFrom (o.give (.builderOps name n)) where
  pattern_eq := h.pattern_eq
  bounds_eq := by
    show { b.bounds with maxOps := opsBound n } = _
    rw [h.bounds_eq, opsBound_eq]
    rfl

theorem Builder.StemsFrom.setNesting (h : b.StemsFrom o) (name : String) (n : Nat) :
    (b.setNesting n).StemsFrom (o.give (.builderNesting name n)) where
  pattern_eq := h.pattern_eq
  bounds_eq := congrArg (fun bounds : Bounds => { bounds with nesting := n }) h.bounds_eq

theorem Builder.StemsFrom.setStrict (h : b.StemsFrom o) (yes : Bool) :
    (b.setStrict yes).StemsFrom o :=
  ⟨h.pattern_eq, h.bounds_eq⟩

/-- What is built has been checked, leniently at least. -/
theorem Builder.StemsFrom.build (h : b.StemsFrom o) (hm : b.build = .ok m) : m.StemsFrom o := by
  unfold Builder.build at hm
  split at hm
  · cases hm
  · next hcheck =>
    cases hm
    exact ⟨h.pattern_eq, h.bounds_eq, walk_lenient hcheck⟩

theorem Matcher.StemsFrom.ofLiteral (literal : Bytes) (past : List Step) :
    (Matcher.ofLiteral (limitsAfter past) literal).StemsFrom
      { pattern := literalPattern literal, before := past } :=
  ⟨rfl, bounds_limitsAfter _ past, check_literalPattern _ _ literal⟩

theorem Matcher.StemsFrom.runsAs (h : m.StemsFrom o) : m.RunsAs o := by
  refine ⟨h, fun data start hstart => ?_, fun nesting hle data start => ?_⟩
  · rw [Matcher.exec, if_neg (Nat.not_lt.mpr hstart), h.pattern_eq, h.bounds_eq]
  · have haccepted := h.accepted
    rw [h.pattern_eq, h.bounds_eq] at haccepted
    exact matchFrom_moreRoom haccepted hle o.bounds.maxOps data start

end

/-! ### What is held under a name -/

namespace Slots

variable {α : Type} {slots : Slots α} {name other : String} {value : α}

theorem get?_clear : (slots.clear name).get? other =
    if other = name then none else slots.get? other := by
  unfold get? clear
  induction slots with
  | nil => simp
  | cons slot slots ih =>
    obtain ⟨key, value⟩ := slot
    rw [List.filter_cons, List.lookup_cons]
    by_cases hkey : key = name
    · subst hkey
      by_cases hother : other = key
      · simpa [hother] using ih
      · simpa [hother, beq_eq_false_iff_ne.mpr hother] using ih
    · simp only [bne_iff_ne, ne_eq, hkey, not_false_eq_true, if_true, List.lookup_cons, ih]
      by_cases hother : other = key
      · simp [hother, hkey]
      · simp [beq_eq_false_iff_ne.mpr hother]

theorem get?_put : (slots.put name value).get? other =
    if other = name then some value else slots.get? other := by
  unfold put
  by_cases h : other = name
  · simp [get?, h]
  · have hclear : (slots.clear name).get? other = slots.get? other := by
      rw [get?_clear, if_neg h]
    rw [if_neg h, ← hclear]
    simp [get?, List.lookup_cons, beq_eq_false_iff_ne.mpr h]

/-- Everything that is held satisfies `p`. -/
def Each (p : String → α → Prop) (slots : Slots α) : Prop :=
  ∀ name value, slots.get? name = some value → p name value

variable {p q : String → α → Prop}

theorem Each.put (h : slots.Each p) (hvalue : q name value)
    (hother : ∀ other, other ≠ name → ∀ value, p other value → q other value) :
    (slots.put name value).Each q := by
  intro other found hfound
  rw [get?_put] at hfound
  split at hfound
  · next heq =>
    subst heq
    cases hfound
    exact hvalue
  · next hne => exact hother other hne found (h other found hfound)

theorem Each.clear (h : slots.Each p)
    (hother : ∀ other, other ≠ name → ∀ value, p other value → q other value) :
    (slots.clear name).Each q := by
  intro other found hfound
  rw [get?_clear] at hfound
  split at hfound
  · cases hfound
  · next hne => exact hother other hne found (h other found hfound)

end Slots

/-! ### Sequences -/

namespace Matches

variable {it : Matches}

/-- A sequence keeps its matcher. -/
@[simp] theorem matcher_next : it.next.2.matcher = it.matcher := by
  unfold next
  split
  · rfl
  · split
    · rfl
    · rfl

theorem matcher_of_mem_trail {later : Matches} (h : later ∈ it.trail) :
    later.matcher = it.matcher := by
  fun_induction trail it with
  | case1 it _ ih =>
    rcases List.mem_cons.mp h with rfl | h
    · rfl
    · rw [ih h, matcher_next]
  | case2 =>
    obtain rfl := List.mem_singleton.mp h
    rfl

/-- A sequence at its end still has its matcher. -/
theorem matcher_finished : (it.trail.getLast?.elim it (·.next.2)).matcher = it.matcher := by
  cases hlast : it.trail.getLast? with
  | none => rfl
  | some last =>
    rw [Option.elim_some, matcher_next, matcher_of_mem_trail (List.mem_of_getLast? hlast)]

end Matches

/-! ### Runs of a session -/

namespace Session

variable {s s' : Session} {name : String} {past : List Step} {step : Step} {answer : Answer}

/-- The session behind a list of steps. -/
def after (s : Session) : List Step → Except Missing Session
  | [] => .ok s
  | step :: steps => do
    let (later, _) ← s.perform step
    later.after steps

theorem bind_eq_ok {ε α β : Type} {x : Except ε α} {next : α → Except ε β} {r : β}
    (h : x >>= next = .ok r) : ∃ a, x = .ok a ∧ next a = .ok r := by
  cases x with
  | error => cases h
  | ok a => exact ⟨a, rfl, h⟩

/-- Steps that are all answered have a session behind them. -/
theorem exists_after_of_answers {steps : List Step} {answers : List Answer}
    (h : s.answers steps = .ok answers) : ∃ s', s.after steps = .ok s' := by
  induction steps generalizing s answers with
  | nil => exact ⟨s, rfl⟩
  | cons step steps ih =>
    obtain ⟨⟨later, answer⟩, hstep, h⟩ := bind_eq_ok h
    obtain ⟨answers, hanswers, -⟩ := bind_eq_ok h
    obtain ⟨s', hs'⟩ := ih hanswers
    refine ⟨s', ?_⟩
    rw [after, hstep]
    exact hs'

/-- A builder stems from the origin that the steps of this record tell for its name. -/
def BuilderTold (past : List Step) (name : String) (b : Builder) : Prop :=
  ∃ o, builderOrigin? name past = some o ∧ b.StemsFrom o

/-- A matcher stems from the origin that the steps of this record tell for its name. -/
def MatcherTold (past : List Step) (name : String) (m : Matcher) : Prop :=
  ∃ o, matcherOrigin? name past = some o ∧ m.StemsFrom o

/-- The matcher of a sequence stems from the origin that the steps of this record tell for the name
of the sequence. -/
def SequenceTold (past : List Step) (name : String) (it : Matches) : Prop :=
  ∃ o, sequenceOrigin? name past = some o ∧ it.matcher.StemsFrom o

/-- What is held under the names of a session is what the steps of this record tell. -/
structure Recorded (past : List Step) (s : Session) : Prop where
  limits_eq : s.limits = limitsAfter past
  builders : s.builders.Each (BuilderTold past)
  matchers : s.matchers.Each (MatcherTold past)
  sequences : s.sequences.Each (SequenceTold past)

variable {past' : List Step}

theorem BuilderTold.of_eq {b : Builder} (h : BuilderTold past name b)
    (heq : builderOrigin? name past' = builderOrigin? name past) : BuilderTold past' name b := by
  rwa [BuilderTold, heq]

theorem MatcherTold.of_eq {m : Matcher} (h : MatcherTold past name m)
    (heq : matcherOrigin? name past' = matcherOrigin? name past) : MatcherTold past' name m := by
  rwa [MatcherTold, heq]

theorem SequenceTold.of_eq {it : Matches} (h : SequenceTold past name it)
    (heq : sequenceOrigin? name past' = sequenceOrigin? name past) : SequenceTold past' name it := by
  rwa [SequenceTold, heq]

theorem get?_of_matcher {m : Matcher} (h : s.matcher name = .ok m) :
    s.matchers.get? name = some m := by
  unfold matcher at h
  split at h
  · next hfound =>
    cases h
    exact hfound
  · cases h

theorem get?_of_builder {b : Builder} (h : s.builder name = .ok b) :
    s.builders.get? name = some b := by
  unfold builder at h
  split at h
  · next hfound =>
    cases h
    exact hfound
  · cases h

theorem get?_of_sequence {it : Matches} (h : s.sequence name = .ok it) :
    s.sequences.get? name = some it := by
  unfold sequence at h
  split at h
  · next hfound =>
    cases h
    exact hfound
  · cases h

/-- A step that only asks changes nothing. -/
theorem perform_query (hquery : step.isQuery) (h : s.perform step = .ok (s', answer)) : s' = s := by
  cases step with
  | getLimits => cases h; rfl
  | getBounds => cases h; rfl
  | matchFrom => cases h; rfl
  | matchOps => cases h; rfl
  | getPattern => obtain ⟨m, -, h⟩ := bind_eq_ok h; cases h; rfl
  | display => obtain ⟨m, -, h⟩ := bind_eq_ok h; cases h; rfl
  | exec =>
    obtain ⟨m, -, h⟩ := bind_eq_ok h
    split at h
    · cases h; rfl
    · cases h; rfl
  | matchAt => obtain ⟨m, -, h⟩ := bind_eq_ok h; cases h; rfl
  | isMatch => obtain ⟨m, -, h⟩ := bind_eq_ok h; cases h; rfl
  | report => obtain ⟨m, -, h⟩ := bind_eq_ok h; cases h; rfl
  | _ => cases hquery

namespace Recorded

theorem start : Recorded [] {} :=
  ⟨rfl, nofun, nofun, nofun⟩

/-- A step that only asks tells nothing new. -/
theorem query (h : Recorded past s) (hquery : step.isQuery) : Recorded (step :: past) s := by
  cases step <;> cases hquery <;>
    exact ⟨h.limits_eq, h.builders, h.matchers, h.sequences⟩

theorem newBuilder (h : Recorded past s) (pattern : Bytes) :
    Recorded (.newBuilder name pattern :: past)
      { s with builders := s.builders.put name (Builder.ofPattern s.limits pattern) } where
  limits_eq := h.limits_eq
  builders := by
    have hnew : BuilderTold (.newBuilder name pattern :: past) name
        (Builder.ofPattern s.limits pattern) :=
      ⟨_, if_pos rfl, h.limits_eq ▸ .ofPattern pattern past⟩
    exact h.builders.put hnew fun other hne _ hb => hb.of_eq (if_neg hne.symm)
  matchers := h.matchers
  sequences := h.sequences

/-- A step that changes one builder is told from the record of that builder. -/
theorem adjust (h : Recorded past s) {change : Builder → Builder}
    (hadjust : s.adjust name change = .ok (s', answer))
    (hlimits : limitsAfter (step :: past) = limitsAfter past)
    (hmatcher : ∀ other, matcherOrigin? other (step :: past) = matcherOrigin? other past)
    (hsequence : ∀ other, sequenceOrigin? other (step :: past) = sequenceOrigin? other past)
    (hbuilder : ∀ other, other ≠ name →
      builderOrigin? other (step :: past) = builderOrigin? other past)
    (hchange : ∀ b, BuilderTold past name b → BuilderTold (step :: past) name (change b)) :
    Recorded (step :: past) s' := by
  obtain ⟨b, hb, hs⟩ := bind_eq_ok hadjust
  have hchanged := hchange b (h.builders name b (get?_of_builder hb))
  cases hs
  exact {
    limits_eq := h.limits_eq.trans hlimits.symm
    builders := h.builders.put hchanged fun other hne _ hb => hb.of_eq (hbuilder other hne)
    matchers := fun other m hm => (h.matchers other m hm).of_eq (hmatcher other)
    sequences := fun other it hit => (h.sequences other it hit).of_eq (hsequence other) }

/-- A step that makes a matcher is told from the record of what it is made of; nothing is told of a
matcher whose pattern is at fault. -/
theorem hold {built : Except Fault Matcher} (hhold : s.hold name built = (s', answer))
    (hlimits : s.limits = limitsAfter (step :: past))
    (hbuilders : s.builders.Each (BuilderTold (step :: past)))
    (hmatchers : s.matchers.Each (MatcherTold past))
    (hsequences : s.sequences.Each (SequenceTold (step :: past)))
    (hother : ∀ other, other ≠ name →
      matcherOrigin? other (step :: past) = matcherOrigin? other past)
    (hbuilt : ∀ m, built = .ok m → MatcherTold (step :: past) name m) :
    Recorded (step :: past) s' := by
  have hkept : ∀ other, other ≠ name → ∀ m,
      MatcherTold past other m → MatcherTold (step :: past) other m :=
    fun other hne _ hm => hm.of_eq (hother other hne)
  cases built with
  | error fault =>
    cases hhold
    exact ⟨hlimits, hbuilders, hmatchers.clear hkept, hsequences⟩
  | ok m =>
    cases hhold
    exact ⟨hlimits, hbuilders, hmatchers.put (hbuilt m rfl) hkept, hsequences⟩

/-- A step that puts a sequence under a name. -/
theorem putSequence (h : Recorded past s) {it : Matches}
    (hlimits : limitsAfter (step :: past) = limitsAfter past)
    (hbuilder : ∀ other, builderOrigin? other (step :: past) = builderOrigin? other past)
    (hmatcher : ∀ other, matcherOrigin? other (step :: past) = matcherOrigin? other past)
    (hsequence : ∀ other, other ≠ name →
      sequenceOrigin? other (step :: past) = sequenceOrigin? other past)
    (hput : SequenceTold (step :: past) name it) :
    Recorded (step :: past) { s with sequences := s.sequences.put name it } where
  limits_eq := h.limits_eq.trans hlimits.symm
  builders := fun other b hb => (h.builders other b hb).of_eq (hbuilder other)
  matchers := fun other m hm => (h.matchers other m hm).of_eq (hmatcher other)
  sequences := h.sequences.put hput fun other hne _ hit => hit.of_eq (hsequence other hne)

/-- **What a session holds is recorded by its steps.** -/
theorem perform (h : Recorded past s) (hs : s.perform step = .ok (s', answer)) :
    Recorded (step :: past) s' := by
  by_cases hquery : step.isQuery
  · rw [perform_query hquery hs]
    exact h.query hquery
  cases step with
  | setNesting n =>
    cases hs
    exact ⟨congrArg (fun limits : Limits => { limits with nesting := n }) h.limits_eq, h.builders,
      h.matchers, h.sequences⟩
  | setOps n =>
    cases hs
    exact ⟨congrArg (fun limits : Limits => { limits with ops := n }) h.limits_eq, h.builders,
      h.matchers, h.sequences⟩
  | newMatcher name pattern =>
    refine hold (Except.ok.inj hs) h.limits_eq h.builders h.matchers h.sequences
      (fun _ hne => if_neg hne.symm) fun m hm => ⟨_, if_pos rfl, ?_⟩
    rw [h.limits_eq] at hm
    exact (Builder.StemsFrom.ofPattern pattern past).build hm
  | newLiteral name literal =>
    refine hold (Except.ok.inj hs) h.limits_eq h.builders h.matchers h.sequences
      (fun _ hne => if_neg hne.symm) fun m hm => ⟨_, if_pos rfl, ?_⟩
    cases hm
    exact h.limits_eq ▸ .ofLiteral literal past
  | copyMatcher source name =>
    obtain ⟨m, hm, hs⟩ := bind_eq_ok hs
    obtain ⟨o, ho, hstems⟩ := h.matchers source m (get?_of_matcher hm)
    refine hold (Except.ok.inj hs) h.limits_eq h.builders h.matchers h.sequences
      (fun _ hne => if_neg hne.symm) fun m' hm' => ⟨o, (if_pos rfl).trans ho, ?_⟩
    cases hm'
    exact hstems
  | newBuilder name pattern =>
    cases hs
    exact h.newBuilder pattern
  | builderOps name n =>
    refine h.adjust hs rfl (fun _ => rfl) (fun _ => rfl) (fun _ hne => if_neg hne.symm) ?_
    rintro b ⟨o, ho, hstems⟩
    exact ⟨_, (if_pos rfl).trans (congrArg _ ho), hstems.setMaxOps name n⟩
  | builderNesting name n =>
    refine h.adjust hs rfl (fun _ => rfl) (fun _ => rfl) (fun _ hne => if_neg hne.symm) ?_
    rintro b ⟨o, ho, hstems⟩
    exact ⟨_, (if_pos rfl).trans (congrArg _ ho), hstems.setNesting name n⟩
  | builderStrict name yes =>
    refine h.adjust hs rfl (fun _ => rfl) (fun _ => rfl) (fun _ _ => rfl) ?_
    rintro b ⟨o, ho, hstems⟩
    exact ⟨o, ho, hstems.setStrict yes⟩
  | build builder name =>
    obtain ⟨b, hb, hs⟩ := bind_eq_ok hs
    obtain ⟨o, ho, hstems⟩ := h.builders builder b (get?_of_builder hb)
    have hbuilders : (s.builders.clear builder).Each (BuilderTold (.build builder name :: past)) :=
      h.builders.clear fun other hne _ hb => hb.of_eq (if_neg hne.symm)
    exact hold (Except.ok.inj hs) h.limits_eq hbuilders h.matchers h.sequences
      (fun _ hne => if_neg hne.symm) fun m hm => ⟨o, (if_pos rfl).trans ho, hstems.build hm⟩
  | findAll name data sequence =>
    obtain ⟨m, hm, hs⟩ := bind_eq_ok hs
    obtain ⟨o, ho, hstems⟩ := h.matchers name m (get?_of_matcher hm)
    cases hs
    exact h.putSequence rfl (fun _ => rfl) (fun _ => rfl) (fun _ hne => if_neg hne.symm)
      ⟨o, (if_pos rfl).trans ho, hstems⟩
  | next name =>
    obtain ⟨it, hit, hs⟩ := bind_eq_ok hs
    obtain ⟨o, ho, hstems⟩ := h.sequences name it (get?_of_sequence hit)
    cases hs
    exact h.putSequence rfl (fun _ => rfl) (fun _ => rfl) (fun _ _ => rfl)
      ⟨o, ho, by rwa [Matches.matcher_next]⟩
  | rest name =>
    obtain ⟨it, hit, hs⟩ := bind_eq_ok hs
    obtain ⟨o, ho, hstems⟩ := h.sequences name it (get?_of_sequence hit)
    cases hs
    exact h.putSequence rfl (fun _ => rfl) (fun _ => rfl) (fun _ _ => rfl)
      ⟨o, ho, by rwa [Matches.matcher_finished]⟩
  | _ => exact absurd rfl hquery

/-- A run adds its steps to the record. -/
theorem after (h : Recorded past s) {steps : List Step} (hs : s.after steps = .ok s') :
    Recorded (steps.reverse ++ past) s' := by
  induction steps generalizing s past with
  | nil =>
    cases hs
    exact h
  | cons step steps ih =>
    obtain ⟨⟨later, answer⟩, hstep, hs⟩ := bind_eq_ok hs
    rw [List.reverse_cons, List.append_assoc]
    exact ih (h.perform hstep) hs

end Recorded

/-- **A matcher is what it was made to be.**  In every run of a session, each matcher under a name,
and each matcher of a sequence, has been accepted by a lenient check under its own bounds.  Its
pattern and its bounds are those that the steps before tell, whatever limits have been set since,
and its matches would be the same with more nesting. -/
theorem runsAs_of_after {steps : List Step} (h : ({} : Session).after steps = .ok s) :
    (∀ name m, s.matchers.get? name = some m →
      ∃ o, matcherOrigin? name steps.reverse = some o ∧ m.RunsAs o) ∧
    (∀ name it, s.sequences.get? name = some it →
      ∃ o, sequenceOrigin? name steps.reverse = some o ∧ it.matcher.RunsAs o) := by
  have hrecorded : Recorded (steps.reverse ++ []) s := Recorded.start.after h
  rw [List.append_nil] at hrecorded
  constructor
  · intro name m hm
    obtain ⟨o, ho, hstems⟩ := hrecorded.matchers name m hm
    exact ⟨o, ho, hstems.runsAs⟩
  · intro name it hit
    obtain ⟨o, ho, hstems⟩ := hrecorded.sequences name it hit
    exact ⟨o, ho, hstems.runsAs⟩

/-- A builder for `[(a)]+b` is made under the first limits, and a literal `(a` where no block may be
entered and one item tried.  The builder is given bounds twice each, and the matcher is copied before
its name goes to a pattern that is refused.  Both matches end where their one item does. -/
theorem runsAs_of_after_interleaved :
    let steps : List Step :=
      [.newBuilder "b" [91, 40, 97, 41, 93, 43, 98], .setNesting 0, .setOps 1,
        .newLiteral "l" [40, 97], .builderNesting "b" 1, .setOps 5, .builderOps "b" 0,
        .builderNesting "b" 2, .builderOps "b" 1, .build "b" "m", .copyMatcher "m" "n", .setOps 3,
        .newMatcher "m" [40]]
    ∃ s, ({} : Session).after steps = .ok s ∧
      (∃ n, s.matchers.get? "n" = some n ∧ n.bounds = { maxOps := some 1, nesting := 2 } ∧
        n.exec #[97, 97, 98, 98] 1 = .ok (.matched 6 2)) ∧
      ∃ l, s.matchers.get? "l" = some l ∧ l.bounds = { maxOps := some 1, nesting := 0 } ∧
        check 0 false l.pattern = .ok () ∧ l.exec #[40, 97] 0 = .ok (.matched 2 1) := by
  intro steps
  have hheld : (match ({} : Session).after steps with
      | .ok s => (s.matchers.get? "n").isSome && (s.matchers.get? "l").isSome
      | .error _ => false) = true := by decide +kernel
  cases hs : ({} : Session).after steps with
  | error missing =>
    rw [hs] at hheld
    cases hheld
  | ok s =>
    simp only [hs, Bool.and_eq_true, Option.isSome_iff_exists] at hheld
    obtain ⟨⟨n, hn⟩, l, hl⟩ := hheld
    obtain ⟨hmatchers, -⟩ := runsAs_of_after hs
    obtain ⟨builder, hbuilder, hruns⟩ := hmatchers "n" n hn
    obtain ⟨literal, hliteral, hruns'⟩ := hmatchers "l" l hl
    cases hbuilder
    cases hliteral
    have hbounds : n.bounds = { maxOps := some 1, nesting := 2 } := hruns.bounds_eq
    have hbounds' : l.bounds = { maxOps := some 1, nesting := 0 } := hruns'.bounds_eq
    have haccepted := hruns'.accepted
    rw [hbounds'] at haccepted
    refine ⟨s, rfl, ⟨n, hn, hbounds, ?_⟩, l, hl, hbounds', haccepted, ?_⟩
    · exact (hruns.exec_eq _ 1 (by decide)).trans (congrArg Except.ok (by decide +kernel))
    · exact (hruns'.exec_eq _ 0 (by decide)).trans (congrArg Except.ok (by decide +kernel))

end Session

end LinearPattern
