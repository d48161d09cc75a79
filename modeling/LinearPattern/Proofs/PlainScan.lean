import LinearPattern.Match.Verdict
import LinearPattern.Proofs.Machine

/-!
# Scans with and without hops

A hop changes nothing but the work that a scan does: where the run of the hop does not fit, the
probe of the scan fails (`probe_isFailed_of_not_fits`), so the first position at which the probe
does not fail is the same with the hop and without it.  A run from inside of groups fails where the
data disagrees with it, however many groups there are and whether or not there is room to enter
them; what follows the run in the pattern is never read.

What a scan without a hop comes to is told on its own, by `ScansTo`: it goes on at the first
position of the data at which the item behind it does not fail, and with no such position it fails
where it stands.
-/

namespace LinearPattern

variable {hopAt : Bytes → Option Hop} {data : Array UInt8} {room : Nat} {start : Bool} {b c : UInt8}
  {rest : Bytes} {d : Nat} {ops : Option Nat}

/-! ### Literals -/

theorem Byte.ofByte_of_isPlain (h : Byte.isPlain b) : Op.ofByte b = .literal := by
  simp only [isPlain, Bool.and_eq_true, Bool.not_eq_true'] at h
  exact Op.ofByte_of_not_isOperator h.1.1

theorem element_literal {body : Nat → Outcome} (h : Op.ofByte b = .literal)
    (hc : data[d]? = some c) :
    element data body b rest d =
      if c == b then .reached rest (d + 1) else .failed (b :: rest) d := by
  unfold element afterElement
  simp only [h, hc, accepts]

/-- A literal that is not the byte of the data fails. -/
theorem block_isFailed_of_ne (h : Op.ofByte b = .literal) (hc : data[d]? = some c) (hne : c ≠ b)
    (ho : ops ≠ some 0) : (block hopAt data room start (b :: rest) d ops).isFailed := by
  have hd : d < data.size := (Array.getElem?_eq_some_iff.mp hc).1
  rw [block_element (by rw [h]; rfl) hd ho, item, element_literal h hc, if_neg (by simpa using hne)]
  rfl

/-- A literal that is the byte of the data is passed. -/
theorem block_literal (h : Op.ofByte b = .literal) (hc : data[d]? = some b)
    (hrest : rest.head? ≠ some Byte.plus) (ho : ops ≠ some 0) :
    block hopAt data room start (b :: rest) d ops =
      block hopAt data room false rest (d + 1) (spend ops) := by
  have hd : d < data.size := (Array.getElem?_eq_some_iff.mp hc).1
  have hitem : afterItem b rest = rest := by
    have helement : afterElement b rest = rest := by simp only [afterElement, h]
    rw [afterItem, helement, afterRun_of_head?_ne hrest]
  rw [block_element (by rw [h]; rfl) hd ho, item, element_literal h hc, if_pos (beq_self_eq_true b)]
  simp only [hrest, if_false, hitem]

/-! ### Runs of literals -/

theorem Hop.agrees_of_size_le (run : Bytes) (h : data.size ≤ d) : Hop.agrees data run d = true := by
  cases run with
  | nil => rfl
  | cons b run => rw [agrees, Array.getElem?_eq_none h]

/-- A block that starts with a run of plain bytes fails where the data disagrees with the run. -/
theorem block_isFailed_of_not_agrees {run more : Bytes} (hplain : ∀ x ∈ run, Byte.isPlain x)
    (h : Hop.agrees data run d = false) :
    (block hopAt data room start (run ++ more) d none).isFailed := by
  induction run generalizing d start with
  | nil => cases h
  | cons b run ih =>
    have hlit := Byte.ofByte_of_isPlain (hplain b List.mem_cons_self)
    have hd : d < data.size := by
      rw [← Nat.not_le]
      intro hle
      rw [Hop.agrees_of_size_le _ hle] at h
      cases h
    obtain ⟨c, hc⟩ : ∃ c, data[d]? = some c := ⟨_, Array.getElem?_eq_getElem hd⟩
    by_cases hcb : c = b
    · subst hcb
      rw [Hop.agrees, hc] at h
      simp only [beq_self_eq_true, Bool.true_and] at h
      -- a `+` behind the whole run does not matter: there is nothing left to disagree with
      have hhead : (run ++ more).head? ≠ some Byte.plus := by
        cases run with
        | nil => cases h
        | cons x run =>
          intro hx
          obtain rfl := Option.some.inj hx
          exact absurd (hplain Byte.plus (by simp)) (by decide)
      rw [List.cons_append, block_literal hlit hc hhead (by simp)]
      exact ih (fun x hx => hplain x (List.mem_cons_of_mem c hx)) h
    · exact block_isFailed_of_ne hlit hc hcb (by simp)

/-! ### Groups -/

/-- A group fails where its body does. -/
theorem block_isFailed_of_group (h : Op.ofByte b = .group) (hd : d < data.size) (ho : ops ≠ some 0)
    (hbody : (bodyAt hopAt data room b rest d).isFailed) :
    (block hopAt data room start (b :: rest) d ops).isFailed := by
  obtain ⟨qs, e, hfail⟩ := Outcome.isFailed_iff.mp hbody
  have helement : element data (bodyAt hopAt data room b rest) b rest d = .failed qs e := by
    rw [element_group h, hfail]
  rw [block_element (by rw [h]; rfl) hd ho, item_eq_failed_iff.mpr helement]
  rfl

/-- Groups inside of groups fail where the innermost one does, if there is room for them, and
without room they fail anyhow. -/
theorem block_isFailed_of_opens (hd : d < data.size) (ho : ops ≠ some 0)
    (h : ∀ room, (block hopAt data room true (Hop.leadingRun.afterOpens rest) d none).isFailed) :
    (block hopAt data room start (Byte.groupOpen :: rest) d ops).isFailed := by
  induction rest generalizing room start ops with
  | nil =>
    have hfail := h 0
    rw [Hop.leadingRun.afterOpens, List.dropWhile_nil, block_nil] at hfail
    cases hfail
  | cons x rest ih =>
    refine block_isFailed_of_group rfl hd ho ?_
    cases room with
    -- there is no room: the block fails where it opens
    | zero => rfl
    | succ inner =>
      show (block hopAt data inner true (x :: rest) d none).isFailed
      by_cases hx : x = Byte.groupOpen
      · subst hx
        exact ih (by simp) h
      · have hopens : Hop.leadingRun.afterOpens (x :: rest) = x :: rest := by
          rw [Hop.leadingRun.afterOpens, List.dropWhile_cons, if_neg (by simpa using hx)]
        exact hopens ▸ h inner

/-! ### Scans -/

/-- The probe of a scan fails where the run of the hop for its target does not fit. -/
theorem probe_isFailed_of_not_fits {target : Bytes} (hd : d < data.size)
    (h : admits (Hop.of? target) data d = false) : (probeAt hopAt data room target d).isFailed := by
  cases hhop : Hop.of? target with
  | none =>
    rw [hhop] at h
    cases h
  | some hop =>
    rw [hhop] at h
    have hagrees : Hop.agrees data (Hop.leadingRun target) d = false :=
      Hop.run_of_of?_eq_some hhop ▸ h
    cases target with
    | nil => cases hagrees
    | cons b rest =>
      rw [Hop.leadingRun] at hagrees
      split at hagrees
      · next hb =>
        obtain rfl := beq_iff_eq.mp hb
        refine block_isFailed_of_opens hd (by simp) fun inner => ?_
        rw [← List.takeWhile_append_dropWhile (p := Byte.isPlain)
          (l := Hop.leadingRun.afterOpens rest)]
        exact block_isFailed_of_not_agrees (List.all_eq_true.mp List.all_takeWhile) hagrees
      · split at hagrees
        · next hplain =>
          have hlit := Byte.ofByte_of_isPlain hplain
          rw [Hop.agrees, Array.getElem?_eq_getElem hd] at hagrees
          refine block_isFailed_of_ne hlit (Array.getElem?_eq_getElem hd) ?_ (by simp)
          simpa [Hop.agrees] using hagrees
        · cases hagrees

/-- A scan that hops and one that tries every position find the same position. -/
theorem locate_plain (hopAt : Bytes → Option Hop) (data : Array UInt8) (room : Nat)
    (target : Bytes) (d : Nat) :
    locate (Hop.of? target) data (probeAt hopAt data room target) d =
      locate none data (probeAt hopAt data room target) d := by
  rw [locate_eq fun e he hadmits => probe_isFailed_of_not_fits he hadmits, locate_noHop]

/-- Blocks with hops and without them are the same. -/
theorem Config.outcome_plain (c : Config) :
    c.outcome (fun _ => none) data = c.outcome Hop.of? data := by
  -- the inner runs are known to be the same already, as they start from a shorter place
  induction c using Config.induction with
  | h c ih =>
    have hagree : Agree Hop.of? (fun _ => none) data c c.room := by
      constructor
      · intro b rest hplace h hd ho ht
        have hlt : (afterRun Byte.scan rest).length < c.place.length := by
          rw [hplace]
          exact Nat.lt_succ_of_le (afterRun_suffix _ _).length_le
        have hprobe : probeAt (fun _ => none) data c.room (afterRun Byte.scan rest) =
            probeAt Hop.of? data c.room (afterRun Byte.scan rest) :=
          funext fun e => ih ⟨c.room, true, _, e, some 1⟩ hlt
        rw [hprobe, locate_plain]
      · intro b rest hplace hd ho
        have hbody : bodyAt (fun _ => none) data c.room b rest =
            bodyAt Hop.of? data c.room b rest := by
          funext e
          cases hroom : c.room with
          | zero => rfl
          | succ inner =>
            refine ih ⟨inner, true, rest, e, none⟩ ?_
            rw [hplace]
            exact Nat.lt_succ_self _
        rw [hbody]
    show (c.setRoom c.room).outcome (fun _ => none) data = _
    refine outcome_of_agree hagree fun c' h => ?_
    rw [← h.room_eq]
    exact ih c' h.length_lt

/-- Whole runs with hops and without them are the same. -/
theorem run_plain (bounds : Bounds) (ps : Bytes) (data : Array UInt8) (d : Nat) :
    run Hop.of? bounds ps data d = run (fun _ => none) bounds ps data d := by
  have hblock : block (fun _ => none) data bounds.nesting true ps d bounds.maxOps =
      block Hop.of? data bounds.nesting true ps d bounds.maxOps :=
    Config.outcome_plain ⟨bounds.nesting, true, ps, d, bounds.maxOps⟩
  rw [run, run, hblock]

/-! ### Scans that try every position -/

/-- What a scan at the place `ps` and the position `i` comes to if it tries one position of the data
after the other: it goes on with `goOn` from the first one at which `probe` does not fail. -/
inductive ScansTo (probe goOn : Nat → Outcome) (size : Nat) (ps : Bytes) (i : Nat) : Outcome → Prop
  | found {e : Nat} (hie : i ≤ e) (he : e < size) (h : ¬(probe e).isFailed)
      (hbefore : ∀ x, i ≤ x → x < e → (probe x).isFailed) : ScansTo probe goOn size ps i (goOn e)
  | missing (h : ∀ x, i ≤ x → x < size → (probe x).isFailed) :
      ScansTo probe goOn size ps i (.failed ps i)

theorem scansTo_locate (probe goOn : Nat → Outcome) (data : Array UInt8) (ps : Bytes) (i : Nat) :
    ScansTo probe goOn data.size ps i
      (match locate none data probe i with
      | none => .failed ps i
      | some e => goOn e) := by
  have hleast := firstFrom_isLeastFrom (fun x => !(probe x).isFailed) data.size i
  rw [locate_noHop, firstSuccess]
  generalize firstFrom (fun x => !(probe x).isFailed) data.size i = e at hleast ⊢
  cases hleast with
  | found hie he h hbefore =>
    simp only [he, if_true]
    exact .found hie he (by simpa using h) fun x hx hlt => by simpa using hbefore x hx hlt
  | missing h =>
    simp only [Nat.lt_irrefl, if_false]
    exact .missing fun x hx hlt => by simpa using h x hx hlt

/-- **Hops never change a verdict.**  Scans that hop from candidate to candidate come to the same as
scans that try one position after the other: without hops, a scan with an item behind it goes on at
the first position of the data at which that item does not fail. -/
theorem matchFrom_eq_plain (bounds : Bounds) (pattern : Bytes) (p : Nat) (data : Array UInt8)
    (d : Nat) :
    matchFrom bounds pattern p data d = matchUsing (fun _ => none) bounds pattern p data d ∧
      ∀ (room : Nat) (start : Bool) (rest : Bytes) (i : Nat) (ops : Option Nat),
        let target := afterRun Byte.scan rest
        atBlockEnd target = false → i < data.size → ops ≠ some 0 →
          ScansTo (fun e => block (fun _ => none) data room true target e (some 1))
            (fun e => block (fun _ => none) data room false target e (spend ops))
            data.size (Byte.scan :: rest) i
            (block (fun _ => none) data room start (Byte.scan :: rest) i ops) := by
  refine ⟨by rw [matchFrom, matchUsing, matchUsing, run_plain], ?_⟩
  intro room start rest i ops target htarget hi ho
  rw [block_scan rfl hi ho, if_neg (Bool.eq_false_iff.mp htarget)]
  exact scansTo_locate _ _ data (Byte.scan :: rest) i

/-- `~((ab))+c` on `xaxababc`: the scan hops to the run `ab` of its inner group, past an `a` with no
`b` behind it, and the groups are repeated from there.  A scan that tries every position gets to the
same place. -/
theorem matchFrom_eq_plain_hopped :
    let target : Bytes := [40, 40, 97, 98, 41, 41, 43, 99]
    let data : Array UInt8 := #[120, 97, 120, 97, 98, 97, 98, 99]
    (∃ hop, Hop.of? target = some hop ∧ hop.run = [97, 98] ∧ hop.next data 0 = 3) ∧
      matchFrom { nesting := 2 } (Byte.scan :: target) 0 data 0 = .matched 9 8 ∧
      matchUsing (fun _ => none) { nesting := 2 } (Byte.scan :: target) 0 data 0 = .matched 9 8 ∧
      (atBlockEnd target = false ∧ 0 < data.size) ∧
      ScansTo (fun e => block (fun _ => none) data 2 true target e (some 1))
        (fun e => block (fun _ => none) data 2 false target e none) data.size
        (Byte.scan :: target) 0 (.reached [] 8) := by
  intro target data
  have hhop : ∃ hop, Hop.of? target = some hop ∧ hop.run = [97, 98] ∧ hop.next data 0 = 3 :=
    ⟨_, rfl, rfl, by decide +kernel⟩
  have hmatched : matchFrom { nesting := 2 } (Byte.scan :: target) 0 data 0 = .matched 9 8 := by
    decide +kernel
  have hblock : block (fun _ => none) data 2 true (Byte.scan :: target) 0 none = .reached [] 8 := by
    decide +kernel
  obtain ⟨hplain, hscans⟩ := matchFrom_eq_plain { nesting := 2 } (Byte.scan :: target) 0 data 0
  have hscan := hscans 2 true target 0 none rfl (by decide) (by simp)
  rw [hblock] at hscan
  exact ⟨hhop, hmatched, hplain ▸ hmatched, ⟨rfl, by decide⟩, hscan⟩

end LinearPattern
