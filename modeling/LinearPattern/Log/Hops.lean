import LinearPattern.Log.Event
import LinearPattern.Match.Verdict

/-!
# The hops of a run

The scans with a hop that a run goes through, in order.  A scan is announced when it starts,
whatever comes of it, also inside blocks, repetitions and probes.

* `hopsOfBlock`: the hops of a block;
* `hopsOfRun`: the hops of a whole match.

The functions here follow a run through the same items as `block` does, and ask `block` itself how
each of them ends.
-/

namespace LinearPattern

/-- The hops of an element, where `inner` has those of the block it may be. -/
def hopsOfElement (inner : Nat → List Event) (b : UInt8) (d : Nat) : List Event :=
  match Op.ofByte b with
  | .group => inner d
  | .option => inner d
  | _ => []

/-- The hops of a repeated element. -/
def hopsOfRepeated (once : Nat → Outcome) (hops : Nat → List Event) (size d : Nat) : List Event :=
  if d < size then
    match once d with
    | .reached _ e => if d < e then hops d ++ hopsOfRepeated once hops size e else hops d
    | _ => hops d
  else []
termination_by size - d

/-- The hops of an element and the `+` behind it. -/
def hopsOfItem (data : Array UInt8) (body : Nat → Outcome) (inner : Nat → List Event) (b : UInt8)
    (rest : Bytes) (d : Nat) : List Event :=
  match element data body b rest d with
  | .reached ps e =>
    if ps.head? = some Byte.plus then
      hopsOfElement inner b d ++
        hopsOfRepeated (element data body b rest) (hopsOfElement inner b) data.size e
    else hopsOfElement inner b d
  | _ => hopsOfElement inner b d

/-- The hops of the probes of a scan. -/
def hopsOfProbes (hop : Option Hop) (data : Array UInt8) (probe : Nat → Outcome)
    (hops : Nat → List Event) (d : Nat) : List Event :=
  if d < data.size then
    let e := candidate hop data d
    if e < data.size then
      if (probe e).isFailed then hops e ++ hopsOfProbes hop data probe hops (e + 1) else hops e
    else []
  else []
termination_by data.size - d
decreasing_by
  have := le_candidate hop data (d := d) (by omega)
  omega

/-- The hops of an inner block, which has none without room for it. -/
def hopsOfEnter (room : Nat) (inside : Nat → Nat → List Event) (d : Nat) : List Event :=
  match room with
  | 0 => []
  | inner + 1 => inside inner d

/-- The hops of a block. -/
def hopsOfBlock (data : Array UInt8) (room : Nat) (start : Bool) (ps : Bytes) (d : Nat)
    (ops : Option Nat) : List Event :=
  match ps with
  | [] => []
  | b :: rest =>
    match Op.ofByte b with
    | .close => []
    | .boundary => if start then hopsOfBlock data room false rest d ops else []
    | op =>
      if data.size ≤ d ∨ ops = some 0 then []
      else
        match op with
        | .plus => hopsOfBlock data room false rest d (spend ops)
        | .scan =>
          let target := afterRun Byte.scan rest
          if atBlockEnd target then hopsOfBlock data room false target d (spend ops)
          else
            let found := Hop.of? target
            let probe := fun e => block Hop.of? data room true target e (some 1)
            let probes :=
              hopsOfProbes found data probe
                (fun e => hopsOfBlock data room true target e (some 1)) d
            let later :=
              match locate found data probe d with
              | none => []
              | some e => hopsOfBlock data room false target e (spend ops)
            (found.toList.map fun h => .hop d h.run) ++ probes ++ later
        | _ =>
          let body := enter room (b :: rest) fun inner e =>
            block Hop.of? data inner true rest e none
          let hops := hopsOfEnter room fun inner e => hopsOfBlock data inner true rest e none
          let later :=
            match item data body b rest d with
            | .reached _ e => hopsOfBlock data room false (afterItem b rest) e (spend ops)
            | _ => []
          hopsOfItem data body hops b rest d ++ later
termination_by ps.length
decreasing_by
  all_goals
    have := (afterRun_suffix Byte.scan rest).length_le
    have := (afterItem_suffix b rest).length_le
    simp only [List.length_cons]
    omega

/-- The hops of a match of a pattern from position `p` on against the data from position `d` on. -/
def hopsOfRun (bounds : Bounds) (pattern : Bytes) (p : Nat) (data : Array UInt8) (d : Nat) :
    List Event :=
  let ps := pattern.drop p
  let d := min d data.size
  if d = data.size ∧ bounds.maxOps ≠ some 0 ∧ needsData (afterBoundary ps) then []
  else hopsOfBlock data bounds.nesting true ps d bounds.maxOps

end LinearPattern
