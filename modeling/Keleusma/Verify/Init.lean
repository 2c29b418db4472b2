import Keleusma.Verify.Structure

/-!
# Definite initialisation

A forward must-analysis over the control-flow edges of a chunk computes the slots that every path
has written before each instruction. No instruction may read a local slot outside that set, nor
a private data slot that starts as `Unit`.
-/

namespace Keleusma

/-- A set of slot indices. -/
abbrev Bits := List ℕ

/-- Where control goes after the instruction at a position: falling through, and jumping. -/
def successors (len ip : ℕ) (op : Op) : Option ℕ × Option ℕ :=
  let next := if ip + 1 < len then some (ip + 1) else none
  let jump t := if t < len then some t else none
  match op with
  | .ifOp t | .breakIf t => (next, jump t)
  | .elseOp t | .endLoop t | .break t => (none, jump t)
  | .return | .trap _ | .reset => (none, none)
  | _ => (next, none)

/-- The sets before the instructions, `none` where no path has arrived yet, and the queue of
the positions whose set has changed. -/
structure MustState where
  sets : List (Option Bits)
  work : List ℕ

/-- Let the set of a predecessor arrive at a position. -/
def MustState.arrive (st : MustState) (set : Bits) (dest : ℕ) : MustState :=
  match st.sets[dest]? with
  | none => st
  | some none =>
    { sets := st.sets.set dest (some set)
      work := if dest ∈ st.work then st.work else st.work ++ [dest] }
  | some (some old) =>
    let met := old.filter (· ∈ set)
    { sets := st.sets.set dest (some met)
      work := if met.length = old.length ∨ dest ∈ st.work then st.work else st.work ++ [dest] }

/-- Work off the queue. -/
def mustLoop (ops : List Op) (transfer : Op → Bits → Bits) :
    ℕ → MustState → Option (List (Option Bits))
  | 0, _ => none
  | fuel + 1, st =>
    match st.work with
    | [] => some st.sets
    | ip :: work =>
      match ops[ip]?, st.sets[ip]? with
      | some op, some (some set) =>
        let set := transfer op set
        let (fall, jump) := successors ops.length ip op
        let st : MustState := { st with work }
        let st := fall.elim st (st.arrive set)
        mustLoop ops transfer fuel (jump.elim st (st.arrive set))
      | _, _ => mustLoop ops transfer fuel { st with work }

/-- The sets that a position may hold shrink at most once for each slot after the first arrival,
which bounds the visits. -/
def mustFuel (ops : List Op) (width : ℕ) : ℕ := ops.length * (width + 2) + 1

/-- A forward must-analysis over a chunk. -/
def mustAnalysis (ops : List Op) (width : ℕ) (entry : Bits) (transfer : Op → Bits → Bits) :
    Option (List (Option Bits)) :=
  match ops with
  | [] => some []
  | _ :: rest =>
    mustLoop ops transfer (mustFuel ops width)
      ⟨some entry :: List.replicate rest.length none, [0]⟩

/-! ## Local slots -/

/-- What an instruction does to the set of written local slots. `Reset` clears every slot and
goes on after `Stream`, and the next resume writes the parameter of a stream into slot 0. -/
def localTransfer (chunk : Chunk) (op : Op) (set : Bits) : Bits :=
  match op with
  | .setLocal i => if i < chunk.localCount then set.insert i else set
  | .stream => if 0 < chunk.paramCount ∧ 0 < chunk.localCount then [0] else []
  | _ => set

/-- The slots that the caller of a chunk writes. -/
def entryBits (chunk : Chunk) : Bits := List.range (min chunk.paramCount chunk.localCount)

/-- The sets of written local slots before the instructions of a chunk. -/
def localAnalysis (chunk : Chunk) : Option (List (Option Bits)) :=
  mustAnalysis chunk.ops chunk.localCount (entryBits chunk) (localTransfer chunk)

/-- A read of a local slot happens where the slot has been written. -/
def checkLocalRead (chunk : Chunk) (sets : List (Option Bits)) (ip : ℕ) (op : Op) :
    Except Fault Unit :=
  match op, sets[ip]? with
  | .getLocal i, some (some set) =>
    if i < chunk.localCount ∧ i ∉ set then .error (.uninitialisedLocal ip i) else .ok ()
  | _, _ => .ok ()

/-- Rule 1 over one chunk. -/
def checkLocals (chunk : Chunk) : Except Fault Unit :=
  match localAnalysis chunk with
  | none => .error .panicked
  | some sets => forEachOp (checkLocalRead chunk sets) 0 chunk.ops

/-! ## Private data slots -/

/-- The private slots, by position, whose initialiser is `Unit` or absent; `private_` counts the
private slots before the position. -/
def unitPrivateSlotsFrom (init : List ConstValue) : ℕ → ℕ → List DataSlot → List ℕ
  | _, _, [] => []
  | slot, private_, s :: rest =>
    if s.visibility = .privateSlot then
      let tail := unitPrivateSlotsFrom init (slot + 1) (private_ + 1) rest
      match init[private_]? with
      | none | some .unit => slot :: tail
      | _ => tail
    else unitPrivateSlotsFrom init (slot + 1) private_ rest

def unitPrivateSlots (m : Module) : List ℕ :=
  m.dataLayout.elim [] fun l => unitPrivateSlotsFrom l.privateInit 0 0 l.slots

/-- The distinct callees of a chunk that the module has. -/
def calleesOf (m : Module) (chunk : Chunk) : List ℕ :=
  (chunk.ops.filterMap fun op =>
    match op with
    | .call callee _ => if callee < m.chunks.length then some callee else none
    | _ => none).eraseDups

/-- Order the chunks whose callees have all been ordered, until no such chunk is left. -/
def calleesFirstFrom (m : Module) : ℕ → List ℕ → List ℕ → List ℕ
  | 0, _, order => order
  | _, [], order => order
  | fuel + 1, c :: ready, order =>
    let order := order ++ [c]
    let released := (List.range m.chunks.length).filter fun caller =>
      (m.chunks[caller]?).any fun chunk =>
        decide (c ∈ calleesOf m chunk) && (calleesOf m chunk).all fun g => decide (g ∈ order)
    calleesFirstFrom m fuel (ready ++ released) order

/-- The chunks in an order where callees come first; chunks on a call cycle are left out. -/
def calleesFirst (m : Module) : List ℕ :=
  calleesFirstFrom m m.chunks.length
    ((List.range m.chunks.length).filter fun c =>
      (m.chunks[c]?).any fun chunk => (calleesOf m chunk).isEmpty) []

/-- What an instruction does to the set of written data slots: slots are named by position, and
a call adds what its callee has written wherever it returns. -/
def dataTransfer (unit : List ℕ) (summaries : ℕ → Bits) (op : Op) (set : Bits) : Bits :=
  match op with
  | .setData s => if s ∈ unit then set.insert s else set
  | .call c _ => (summaries c).foldl (fun acc i => acc.insert i) set
  | _ => set

/-- The slots written wherever a chunk returns. -/
def returnSummary (chunk : Chunk) (sets : List (Option Bits)) : Bits :=
  (((chunk.ops.zip sets).filterMap fun e =>
    match e.1, e.2 with
    | .return, some set => some set
    | _, _ => none).foldl
      (fun acc set => some (acc.elim set fun old => old.filter (· ∈ set))) none).getD []

/-- The summaries of the chunks, callees first. -/
def dataSummaries (m : Module) (unit : List ℕ) : List ℕ → (ℕ → Bits) → Option (ℕ → Bits)
  | [], summaries => some summaries
  | c :: rest, summaries => do
    let chunk ← m.chunks[c]?
    let sets ← mustAnalysis chunk.ops unit.length [] (dataTransfer unit summaries)
    let summary := returnSummary chunk sets
    dataSummaries m unit rest fun i => if i = c then summary else summaries i

/-- A read of a data slot happens where the slot has been written. -/
def checkDataRead (unit : List ℕ) (sets : List (Option Bits)) (ip : ℕ) (op : Op) :
    Except Fault Unit :=
  let readOk (base len : ℕ) (set : Bits) : Except Fault Unit :=
    match unit.find? fun s => decide (base ≤ s ∧ s < base + len ∧ s ∉ set) with
    | some s => .error (.uninitialisedData ip s)
    | none => .ok ()
  match op, sets[ip]? with
  | .getData s, some (some set) => readOk s 1 set
  | .getDataIndexed base len, some (some set) => readOk base len set
  | _, _ => .ok ()

/-- Rule 2 over one chunk. -/
def checkChunkData (unit : List ℕ) (summaries : ℕ → Bits) (chunk : Chunk) : Except Fault Unit :=
  match mustAnalysis chunk.ops unit.length [] (dataTransfer unit summaries) with
  | none => .error .panicked
  | some sets => forEachOp (checkDataRead unit sets) 0 chunk.ops

/-- Rule 2 over the module. -/
def checkPrivateData (m : Module) : Except VerifyError Unit :=
  let unit := unitPrivateSlots m
  if unit.isEmpty then .ok ()
  else
    match dataSummaries m unit (calleesFirst m) fun _ => [] with
    | none => .error ⟨"", .panicked⟩
    | some summaries => m.chunks.forM fun chunk => inChunk chunk (checkChunkData unit summaries chunk)

/-- Refuse a module in which some read may observe an empty slot. -/
def verifyDefiniteInitialization (m : Module) : Except VerifyError Unit := do
  m.chunks.forM fun chunk => inChunk chunk (checkLocals chunk)
  checkPrivateData m

end Keleusma
