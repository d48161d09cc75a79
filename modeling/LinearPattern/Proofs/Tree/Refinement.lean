import LinearPattern.Proofs.PlainScan
import LinearPattern.Proofs.Tree.Eval

/-!
# Running the bytes of a tree

A run that reads the bytes of a pattern tree comes to what the tree means
(`Items.matchFrom_render`).  Places in the bytes and positions in the tree are related by what is
left of the pattern (`Shows`, `ShowsBlock`); that an element or a sequence is run as it should be is
`Element.Implemented` and `Items.Implemented`, with one lemma for each way to build a tree.
-/

namespace LinearPattern.Tree

variable {data : Array UInt8} {total : Nat}

/-! ### Results and outcomes -/

/-- A result and an outcome say the same: the place of the outcome is all that is behind the
position of the result, in a pattern of `total` bytes. -/
inductive Shows (total : Nat) : Result → Outcome → Prop
  | reached {p d ps} (h : p + ps.length = total) : Shows total (.reached p d) (.reached ps d)
  | failed {p d ps} (h : p + ps.length = total) : Shows total (.failed p d) (.failed ps d)
  | ended {p d ps} (h : p + ps.length = total) : Shows total (.ended p d) (.ended ps d)

/-- A block that comes to its end goes on behind the close, a sequence stays in front of it. -/
inductive ShowsBlock (total : Nat) (after : Bytes) : Result → Outcome → Prop
  | shows {r o} (h : Shows total r o) : ShowsBlock total after r o
  | close {p d} (h : p + after.length = total) :
      ShowsBlock total after (.reached p d) (.reached (after.drop 1) d)

theorem Shows.isFailed_eq {r : Result} {o : Outcome} (h : Shows total r o) :
    o.isFailed = r.isFailed := by
  cases h <;> rfl

theorem ShowsBlock.isFailed_eq {after : Bytes} {r : Result} {o : Outcome}
    (h : ShowsBlock total after r o) : o.isFailed = r.isFailed := by
  cases h with
  | shows h => exact h.isFailed_eq
  | close => rfl

/-- With no close behind it, a block stays where its sequence ends. -/
theorem ShowsBlock.shows_of_nil {r : Result} {o : Outcome} (h : ShowsBlock total [] r o) :
    Shows total r o := by
  cases h with
  | shows h => exact h
  | close h => exact .reached h

theorem Shows.verdict_eq {pattern : Bytes} {r : Result} {o : Outcome}
    (h : Shows pattern.length r o) : o.verdict pattern = r.verdict := by
  cases h with
  | reached h => simp only [Outcome.verdict, Result.verdict, ← h, Nat.add_sub_cancel]
  | failed h => simp only [Outcome.verdict, Result.verdict, ← h, Nat.add_sub_cancel]
  | ended h => simp only [Outcome.verdict, Result.verdict, ← h, Nat.add_sub_cancel]

/-- What goes on in the same way behind what is passed comes to the same. -/
theorem Shows.andThen {R : Result → Outcome → Prop} (hR : ∀ r o, Shows total r o → R r o)
    {next : Nat → Nat → Result} {next' : Bytes → Nat → Outcome} :
    ∀ {r : Result} {o : Outcome}, Shows total r o →
      (∀ p ps d, o = .reached ps d → p + ps.length = total → R (next p d) (next' ps d)) →
      R (r.andThen next)
        (match o with
        | .reached ps d => next' ps d
        | .failed ps d => .failed ps d
        | .ended ps d => .ended ps d)
  | _, _, .reached h, hnext => hnext _ _ _ rfl h
  | _, _, .failed h, _ => hR _ _ (.failed h)
  | _, _, .ended h, _ => hR _ _ (.ended h)

/-! ### Repetitions -/

/-- Repetitions of elements that do the same do the same. -/
theorem again_shows {once : Nat → Result} {once' : Nat → Outcome} {p size d : Nat} {after : Bytes}
    (h : ∀ x, x < size → Shows total (once x) (once' x)) (hp : p + after.length = total) :
    Shows total (again once p size d) (repeated once' after size d) := by
  rw [again, repeated]
  by_cases hd : d < size
  · have hshows := h d hd
    rw [if_pos hd, if_pos hd]
    generalize once d = r at hshows ⊢
    generalize once' d = o at hshows ⊢
    cases hshows with
    | @reached q e ps _ =>
      simp only
      by_cases he : d < e
      · rw [if_pos he, if_pos he]
        exact again_shows h hp
      · rw [if_neg he, if_neg he]
        exact .reached hp
    | failed => exact .reached hp
    | ended hq => exact .ended hq
  · rw [if_neg hd, if_neg hd]
    exact .reached hp
termination_by size - d
decreasing_by omega

/-- An element with its `+` is the item that its bytes are, if no other `+` is behind them. -/
theorem retried_shows {once : Nat → Result} {body : Nat → Outcome} {b : UInt8} {rest more : Bytes}
    {n d : Nat} (h : ∀ x, x < data.size → Shows total (once x) (element data body b rest x))
    (hrest : afterElement b rest = List.replicate n Byte.plus ++ more)
    (hmore : more.head? ≠ some Byte.plus) (hd : d < data.size) :
    Shows total (retried once n data.size d) (item data body b rest d) := by
  unfold item
  cases n with
  | zero =>
    have hshows := h d hd
    rw [retried]
    cases ho : element data body b rest d with
    | reached ps e =>
      obtain rfl : ps = more := (element_reached ho).trans hrest
      simp only [hmore, if_false]
      exact ho ▸ hshows
    | failed ps e =>
      rw [ho] at hshows
      exact hshows
    | ended ps e =>
      rw [ho] at hshows
      exact hshows
  | succ n =>
    rw [retried]
    refine Shows.andThen (R := Shows total) (fun _ _ => id) (h d hd) ?_
    intro p ps e ho hp
    obtain rfl : ps = List.replicate (n + 1) Byte.plus ++ more := (element_reached ho).trans hrest
    have hplus : (List.replicate (n + 1) Byte.plus ++ more).head? = some Byte.plus := rfl
    rw [if_pos hplus, afterRun_replicate, afterRun_of_head?_ne hmore]
    refine again_shows h ?_
    rw [List.length_append, List.length_replicate] at hp
    omega

/-! ### Elements -/

/-- The bytes of an element do what the element means, whatever is behind them. -/
def Element.Implemented (data : Array UInt8) (e : Element) : Prop :=
  ∀ (room p total : Nat) (rest : Bytes), p + (e.render ++ rest).length = total → ∀ d < data.size,
    Shows total (e.eval data room p d)
      (element data (bodyAt (fun _ => none) data room e.opener (e.operand ++ rest)) e.opener
        (e.operand ++ rest) d)

/-- The bytes of a sequence, with the end of a block behind them, do what the sequence means. -/
def Items.Implemented (data : Array UInt8) (items : Items) : Prop :=
  ∀ (ops : Option Nat) (room : Nat) (start : Bool) (p total : Nat) (after : Bytes),
    p + (items.render ++ after).length = total → atBlockEnd after → ∀ d,
      ShowsBlock total after (items.eval data ops room start p d)
        (block (fun _ => none) data room start (items.render ++ after) d ops)

theorem Element.implemented_byte (t : Test) : (Element.byte t).Implemented data := by
  intro room p total rest hp d hd
  obtain ⟨hgroup, hoption⟩ := t.opener_single
  rw [element_of_single hgroup hoption, Element.afterElement_eq, Element.eval,
    Array.getElem?_eq_getElem hd]
  simp only [t.accepts_eq]
  split
  · refine .reached ?_
    rw [← hp, List.length_append, Nat.add_assoc]
    rfl
  · refine .failed ?_
    rw [← List.cons_append, ← Element.render_eq]
    exact hp

/-- The body of a block is run up to the close behind it. -/
theorem Items.Implemented.body_shows {body : Items} (h : body.Implemented data) (inner : Nat)
    {b close : UInt8} (hclose : Byte.isClose close) {p : Nat} {rest : Bytes}
    (hp : p + (b :: (body.render ++ close :: rest)).length = total) (d : Nat) :
    ShowsBlock total (close :: rest) (body.eval data none inner true (p + 1) d)
      (bodyAt (fun _ => none) data (inner + 1) b (body.render ++ close :: rest) d) := by
  refine h none inner true (p + 1) total (close :: rest) ?_ hclose d
  rw [List.length_cons] at hp
  omega

theorem Element.implemented_group {body : Items} (h : body.Implemented data) :
    (Element.group body).Implemented data := by
  intro room p total rest hp d hd
  have hplace : (Element.group body).operand ++ rest = body.render ++ Byte.groupClose :: rest :=
    List.append_assoc _ _ _
  rw [element_group rfl, Element.afterElement_eq, hplace]
  have hend : p + (Element.group body).render.length + rest.length = total := by
    rw [← hp, List.length_append, Nat.add_assoc]
  rw [Element.render_eq, List.cons_append, hplace] at hp
  cases room with
  | zero => exact .failed hp
  | succ inner =>
    have hbody := h.body_shows inner rfl hp d
    rw [Element.eval]
    generalize Items.eval data none inner true (p + 1) body d = r at hbody ⊢
    generalize bodyAt _ data (inner + 1) _ _ d = o at hbody ⊢
    cases hbody with
    | shows hbody =>
      cases hbody with
      | reached => exact .reached hend
      | failed hp => exact .failed hp
      | ended hp => exact .ended hp
    | close => exact .reached hend

theorem Element.implemented_option {body : Items} (h : body.Implemented data) :
    (Element.option body).Implemented data := by
  intro room p total rest hp d hd
  have hplace : (Element.option body).operand ++ rest = body.render ++ Byte.optionClose :: rest :=
    List.append_assoc _ _ _
  rw [element_option rfl, Element.afterElement_eq, hplace]
  have hend : p + (Element.option body).render.length + rest.length = total := by
    rw [← hp, List.length_append, Nat.add_assoc]
  rw [Element.render_eq, List.cons_append, hplace] at hp
  cases room with
  | zero => exact .reached hend
  | succ inner =>
    have hbody := h.body_shows inner rfl hp d
    rw [Element.eval]
    generalize Items.eval data none inner true (p + 1) body d = r at hbody ⊢
    generalize bodyAt _ data (inner + 1) _ _ d = o at hbody ⊢
    cases hbody with
    | shows hbody =>
      cases hbody with
      | reached => exact .reached hend
      | failed => exact .reached hend
      | ended hp => exact .ended hp
    | close => exact .reached hend

/-! ### Sequences -/

theorem Items.implemented_nil : Items.nil.Implemented data := by
  intro ops room start p total after hp ha d
  show ShowsBlock total after (.reached p d) (block _ data room start after d ops)
  cases after with
  | nil =>
    rw [block_nil]
    exact .shows (.reached hp)
  | cons b after =>
    rw [block_close (beq_iff_eq.mp ha)]
    exact .close hp

theorem Items.implemented_boundary {items : Items} (h : items.Implemented data) :
    (Items.boundary items).Implemented data := by
  intro ops room start p total after hp ha d
  have hbehind : p + 1 + (items.render ++ after).length = total := by
    rw [Items.render, List.cons_append, List.length_cons] at hp
    omega
  rw [Items.render, List.cons_append, Items.eval]
  cases start with
  | true =>
    rw [block_boundary_start rfl]
    exact h ops room false (p + 1) total after hbehind ha d
  | false =>
    rw [block_boundary rfl]
    exact .shows (.ended hbehind)

theorem Items.implemented_plus {items : Items} (h : items.Implemented data) :
    (Items.plus items).Implemented data := by
  intro ops room start p total after hp ha d
  have hbehind : p + 1 + (items.render ++ after).length = total := by
    rw [Items.render, List.cons_append, List.length_cons] at hp
    omega
  rw [Items.eval]
  by_cases hidle : data.size ≤ d ∨ ops = some 0
  · rw [if_pos hidle]
    rw [Items.render, List.cons_append] at hp ⊢
    rw [block_stop (b := Byte.plus) (by decide) (by decide) hidle]
    exact .shows (.reached hp)
  · obtain ⟨hd, ho⟩ := not_or.mp hidle
    rw [if_neg hidle, Items.render, List.cons_append, block_plus rfl (Nat.not_le.mp hd) ho]
    exact h (spend ops) room false (p + 1) total after hbehind ha d

theorem Items.implemented_element {e : Element} {n : Nat} {items : Items}
    (he : e.Implemented data) (h : items.Implemented data)
    (hplus : items.startsWithPlus = false) : (Items.element e n items).Implemented data := by
  intro ops room start p total after hp ha d
  obtain ⟨hc, hb, -, -⟩ := Op.startsElement_eq_true.mp e.startsElement_opener
  rw [Items.render_element] at hp ⊢
  rw [Items.eval]
  by_cases hidle : data.size ≤ d ∨ ops = some 0
  · rw [if_pos hidle, block_stop hc hb hidle]
    exact .shows (.reached hp)
  · obtain ⟨hd, ho⟩ := not_or.mp hidle
    rw [Nat.not_le] at hd
    -- no `+` behind those of the element could be read as one of them
    have hmore : (items.render ++ after).head? ≠ some Byte.plus :=
      Items.head?_ne (by decide) ha (Items.first_ne_plus hplus)
    have hafter : afterItem e.opener
        (e.operand ++ (List.replicate n Byte.plus ++ (items.render ++ after))) =
        items.render ++ after := by
      rw [afterItem, Element.afterElement_eq, afterRun_replicate, afterRun_of_head?_ne hmore]
    have hitem := retried_shows (he room p total _ (by rwa [e.render_eq, List.cons_append]))
      (Element.afterElement_eq _ e) hmore hd
    rw [if_neg hidle, block_element e.startsElement_opener hd ho, hafter]
    refine Shows.andThen (R := ShowsBlock total after) (fun _ _ => .shows) hitem ?_
    intro q ps x hi hq
    obtain rfl : ps = items.render ++ after := (item_reached hi).trans hafter
    exact h (spend ops) room false q total after hq ha x

theorem Items.implemented_scan {n : Nat} {items : Items} (h : items.Implemented data)
    (hscan : items.startsWithScan = false) (hboundary : items.startsWithBoundary = false) :
    (Items.scan n items).Implemented data := by
  intro ops room start p total after hp ha d
  rw [Items.render_scan] at hp ⊢
  have hbehind : p + (n + 1) + (items.render ++ after).length = total := by
    rw [List.length_cons, List.length_append, List.length_replicate] at hp
    omega
  rw [Items.eval]
  by_cases hidle : data.size ≤ d ∨ ops = some 0
  · rw [if_pos hidle, block_stop (b := Byte.scan) (by decide) (by decide) hidle]
    exact .shows (.reached hp)
  · obtain ⟨hd, ho⟩ := not_or.mp hidle
    rw [Nat.not_le] at hd
    rw [if_neg hidle, block_scan_probe rfl hd ho, afterRun_replicate, afterRun_scan hscan ha,
      atBlockEnd_render ha]
    by_cases hnil : items.isNil
    · rw [if_pos hnil, if_pos hnil]
      exact h (spend ops) room false _ total after hbehind ha d
    -- the probe is a run with a budget of one item, so it fails where that item does
    · have hprobe : ∀ x, x < data.size →
          (probeAt (fun _ => none) data room (items.render ++ after) x).isFailed =
            items.headFails data room (p + (n + 1)) x := fun x hx =>
        (h (some 1) room true _ total after hbehind ha x).isFailed_eq.trans
          (isFailed_eval_one hx true _ hscan hboundary)
      have hfirst := firstFrom_congr (i := d) fun x hx => congrArg (!·) (hprobe x hx)
      rw [if_neg hnil, if_neg hnil, locate_noHop, firstSuccess, hfirst]
      by_cases hx : firstFrom (fun x => !items.headFails data room (p + (n + 1)) x) data.size d <
          data.size
      · simp only [if_pos hx]
        exact h (spend ops) room false _ total after hbehind ha _
      · simp only [if_neg hx]
        exact .shows (.failed hp)

/-! ### Whole trees -/

mutual

theorem Element.implemented : ∀ e : Element, e.isWellFormed → e.Implemented data
  | .byte t, _ => Element.implemented_byte t
  | .group body, h => Element.implemented_group (Items.implemented body h)
  | .option body, h => Element.implemented_option (Items.implemented body h)

theorem Items.implemented : ∀ items : Items, items.isWellFormed → items.Implemented data
  | .nil, _ => Items.implemented_nil
  | .element e n items, h => by
    simp only [Items.isWellFormed, Bool.and_eq_true, Bool.not_eq_true'] at h
    obtain ⟨⟨he, hplus⟩, hitems⟩ := h
    exact Items.implemented_element (Element.implemented e he) (Items.implemented items hitems)
      hplus
  | .scan n items, h => by
    simp only [Items.isWellFormed, Bool.and_eq_true, Bool.not_eq_true'] at h
    obtain ⟨⟨hscan, hboundary⟩, hitems⟩ := h
    exact Items.implemented_scan (Items.implemented items hitems) hscan hboundary
  | .boundary items, h => Items.implemented_boundary (Items.implemented items h)
  | .plus items, h => Items.implemented_plus (Items.implemented items h)

end

/-- The first byte of a sequence tells whether its first item needs a byte of the data. -/
theorem Items.needsByte_render {items : Items} (h : items.isWellFormed) :
    needsData items.render = items.needsByte := by
  cases items with
  | nil => rfl
  | boundary items => rfl
  | plus items => rfl
  | scan n items =>
    simp only [Items.isWellFormed, Bool.and_eq_true, Bool.not_eq_true'] at h
    obtain ⟨⟨hscan, -⟩, -⟩ := h
    rw [← List.append_nil (Items.scan n items).render, Items.render_scan]
    show (!atBlockEnd (afterRun Byte.scan (List.replicate n Byte.scan ++ (items.render ++ [])))) = _
    rw [afterRun_replicate, afterRun_scan hscan rfl, atBlockEnd_render rfl]
    rfl
  | element e n items =>
    rw [← List.append_nil (Items.element e n items).render, Items.render_element]
    cases e with
    | group body => rfl
    | option body => rfl
    | byte t =>
      cases t with
      | literal b hb =>
        show needsData (b :: _) = true
        rw [needsData]
        simp only [Op.ofByte_of_not_isOperator hb]
      | _ => rfl

theorem Items.afterBoundary_render (items : Items) :
    afterBoundary items.render = items.behindBoundary.2.render ∧
      items.behindBoundary.1 + items.behindBoundary.2.render.length = items.render.length := by
  cases items with
  | nil => exact ⟨rfl, rfl⟩
  | boundary items => exact ⟨rfl, Nat.add_comm _ _⟩
  | plus items => exact ⟨rfl, Nat.zero_add _⟩
  | scan n items => exact ⟨rfl, Nat.zero_add _⟩
  | element e n items =>
    refine ⟨?_, Nat.zero_add _⟩
    have hboundary : ¬(e.opener == Byte.boundary) := by
      rw [beq_iff_eq]
      intro hb
      have hop := (Op.startsElement_eq_true.mp e.startsElement_opener).2.1
      rw [hb] at hop
      exact hop rfl
    show afterBoundary (Items.element e n items).render = (Items.element e n items).render
    rw [← List.append_nil (Items.element e n items).render, Items.render_element, afterBoundary,
      if_neg hboundary]

theorem Items.behindBoundary_needsByte (items : Items) (h : items.isWellFormed) :
    needsData items.behindBoundary.2.render = items.behindBoundary.2.needsByte := by
  cases items with
  | boundary items => exact needsByte_render h
  | _ => exact needsByte_render h

/-- A run of the bytes of a tree comes to what the tree means. -/
theorem Items.meaning_shows {items : Items} (h : items.isWellFormed) (bounds : Bounds) (d : Nat) :
    Shows items.render.length (items.meaning bounds data d)
      (run (fun _ => none) bounds items.render data d) := by
  obtain ⟨hplace, hlen⟩ := items.afterBoundary_render
  have hneeds := items.behindBoundary_needsByte h
  rw [← hplace] at hneeds hlen
  unfold Items.meaning run
  simp only [hneeds]
  split
  · exact .failed hlen
  · have himplemented : items.Implemented data := Items.implemented items h
    have hblock := himplemented bounds.maxOps bounds.nesting true 0 items.render.length []
      (by rw [List.append_nil, Nat.zero_add]) rfl d
    rw [List.append_nil] at hblock
    exact hblock.shows_of_nil

/-- **What a pattern tree means is what its bytes do.** -/
theorem Items.matchFrom_render {items : Items} (h : items.isWellFormed) (bounds : Bounds)
    (data : Array UInt8) (d : Nat) :
    matchFrom bounds items.render 0 data d =
      (items.meaning bounds data (min d data.size)).verdict := by
  rw [matchFrom, matchUsing, List.drop_zero, run_plain]
  exact (meaning_shows h bounds _).verdict_eq

/-- A leading boundary, the group `(a[b]+)+`, a scan for an escaped parenthesis and a boundary that
ends the match, on `abbax)z`. -/
theorem Items.matchFrom_render_nested :
    let ab : Items := .element (.byte (.literal 97 rfl)) 0
      (.element (.option (.element (.byte (.literal 98 rfl)) 0 .nil)) 1 .nil)
    let items : Items := .boundary (.element (.group ab) 1
      (.scan 0 (.element (.byte (.escaped 41)) 0 (.boundary .nil))))
    items.isWellFormed ∧ items.render = [96, 40, 97, 91, 98, 93, 43, 41, 43, 126, 92, 41, 96] ∧
      matchFrom { maxOps := none, nesting := 2 } items.render 0 #[97, 98, 98, 97, 120, 41, 122] 0 =
        .matched 13 6 := by
  intro ab items
  have hwf : items.isWellFormed := by decide
  refine ⟨hwf, by decide, ?_⟩
  rw [matchFrom_render hwf]
  decide +kernel

end LinearPattern.Tree
