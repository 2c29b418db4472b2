import Keleusma.Safety.Monitor
import Keleusma.Verify.Yielding

/-!
# The chunks that always yield

The monitor `yieldRecord` says of each frame whether a `Yield` has been executed since the frame was
entered, by the frame or by one that it has called. A chunk that `computeAlwaysYielding` names has
yielded when it ends (`alwaysYielding_yields`), in every run whose steps meet `ReturnStep`: the walk
behind the set takes no notice of an early `Return` and relies on the operands of `Else`. The
condition asks that control passes a yield, or a call of a chunk that delivers one on every way
through it (`Delivers`), before it comes to an early `Return`.
-/

namespace Keleusma

variable {F : Type} {env : Env F}

/-! ## Ways through a chunk -/

/-- The instruction yields, or calls a chunk of the set. -/
def Op.Yields (A : ℕ → Prop) : Op → Prop
  | .yield => True
  | .call callee _ => A callee
  | _ => False

/-- Control can come from the entry to a position without a yield and without the call of a chunk of
the set. -/
def SilentlyReaches (ops : List Op) (A : ℕ → Prop) (ip : ℕ) : Prop :=
  FlowReaches ops (fun op (_ _ : Unit) => ¬op.Yields A) () ip ()

/-- Every way through a chunk passes a yield, or the call of a chunk of the same kind: before that
control comes to no `Return` and to no `Reset`, and does not run off the instructions. -/
inductive Delivers (m : Module) : ℕ → Prop
  | intro {i : ℕ} {c : Chunk} {A : ℕ → Prop} (hc : m.chunks[i]? = some c)
      (hA : ∀ j, A j → Delivers m j)
      (hends : ∀ ip, SilentlyReaches c.ops A ip →
        ∃ op, c.ops[ip]? = some op ∧ op ≠ .return ∧ op ≠ .reset) : Delivers m i

section Silent

variable {ops : List Op} {A A' : ℕ → Prop} {always : List ℕ} {ip ip' : ℕ} {op : Op}

theorem SilentlyReaches.next (h : SilentlyReaches ops A ip) (hop : ops[ip]? = some op)
    (hn : ip' ∈ op.next ip) (hy : ¬op.Yields A) : SilentlyReaches ops A ip' :=
  FlowReaches.next h hop hn hy

theorem Op.Yields.mono (h : ∀ j, A j → A' j) (hy : op.Yields A) : op.Yields A' := by
  cases op with
  | yield => trivial
  | call callee _ => exact h callee hy
  | _ => exact hy

/-- What is silent for more calls is silent for fewer. -/
theorem SilentlyReaches.anti (h : ∀ j, A j → A' j) (hs : SilentlyReaches ops A' ip) :
    SilentlyReaches ops A ip := by
  refine Relation.ReflTransGen.mono ?_ _ _ hs
  intro p q hstep
  obtain ⟨op, hop, hn, hy⟩ := hstep
  exact ⟨op, hop, hn, fun hy' => hy (hy'.mono h)⟩

theorem Op.yields_iff : op.yields always = true ↔ op.Yields (· ∈ always) := by
  cases op with
  | yield => exact iff_of_true rfl trivial
  | call callee _ => exact decide_eq_true_iff
  | _ => exact iff_of_false Bool.false_ne_true id

/-- The silent paths are those on which the walk has not yielded. -/
theorem silentlyReaches_iff :
    SilentlyReaches ops (· ∈ always) ip ↔ FlowReaches ops (yieldEff always) false ip false := by
  constructor
  · intro h
    refine Relation.ReflTransGen.lift (fun s : ℕ × Unit => (s.1, false)) ?_ _ _ h
    rintro s s' ⟨op, hop, hn, hy⟩
    refine ⟨op, hop, hn, ?_⟩
    rw [← Op.yields_iff, Bool.not_eq_true] at hy
    rw [yieldEff, hy]
    rfl
  · intro h
    have hall : ∀ s : ℕ × Bool, Relation.ReflTransGen (Flow ops (yieldEff always)) (0, false) s →
        s.2 = false → SilentlyReaches ops (· ∈ always) s.1 := by
      intro s hs
      induction hs with
      | refl => exact fun _ => .refl
      | @tail s s' _ hstep ih =>
        obtain ⟨op, hop, hn, heff⟩ := hstep
        intro hfalse
        obtain ⟨hv, hy⟩ := Bool.or_eq_false_iff.mp (heff.symm.trans hfalse)
        refine (ih hv).next hop hn fun hyields => ?_
        rw [Op.yields_iff.mpr hyields] at hy
        cases hy
    exact hall _ h rfl

/-- A chunk that delivers is silent nowhere at its end. -/
theorem Delivers.ends {m : Module} {i : ℕ} {c : Chunk} (h : Delivers m i)
    (hc : m.chunks[i]? = some c) (hs : SilentlyReaches c.ops (Delivers m) ip) :
    ∃ op, c.ops[ip]? = some op ∧ op ≠ .return ∧ op ≠ .reset := by
  cases h with
  | intro hc' hA hends =>
    cases hc.symm.trans hc'
    exact hends ip (hs.anti hA)

/-- Control that is silent stays among positions that it does not leave without a yield. -/
theorem SilentlyReaches.mem {l : List ℕ} (h : SilentlyReaches ops A ip) (hstart : 0 ∈ l)
    (hl : ∀ p ∈ l, ∀ op ∈ ops[p]?, op ≠ .yield → ∀ q ∈ op.next p, q ∈ l) : ip ∈ l := by
  have hall : ∀ s : ℕ × Unit,
      Relation.ReflTransGen (Flow ops fun op (_ _ : Unit) => ¬op.Yields A) (0, ()) s → s.1 ∈ l := by
    intro s hs
    induction hs with
    | refl => exact hstart
    | @tail s s' _ hstep ih =>
      obtain ⟨op, hop, hn, hy⟩ := hstep
      exact hl s.1 ih op hop (by rintro rfl; exact hy trivial) s'.1 hn
  exact hall _ h

end Silent

/-! ## The record -/

/-- The record after an instruction, or after running off the end. -/
def yieldedAfter : Option Op → List Bool → List Bool
  | some .yield, gs => gs.map fun _ => true
  | some (.call _ _), gs => false :: gs
  | some .return, gs | none, gs => gs.tail
  | some _, gs => gs

/-- Whether a `Yield` has been executed since a frame was entered, in it or in a chunk it calls. -/
def yieldRecord (env : Env F) : Monitor F Bool where
  enter _ := false
  exec vm gs :=
    match vm.frames with
    | [] => gs
    | f :: _ => yieldedAfter (nextOp env f) gs
  resume _ gs := gs

/-- When a chunk that always yields ends, by `Return` or behind its last instruction, its frame is
on record as having yielded. -/
def EndsYielded (env : Env F) (vm : Vm F) (gs : List Bool) : Prop :=
  ∀ f rest, vm.frames = f :: rest → f.chunkIdx ∈ computeAlwaysYielding env.module →
    nextOp env f = some .return ∨ nextOp env f = none → gs.head? = some true

/-! ## The condition -/

/-- What the walk relies on in a chunk that always yields. -/
structure ReturnOk (env : Env F) (f : CallFrame) : Prop where
  /-- At the last instruction, and behind it: each `Else` names the delimiter of its own block. -/
  matched : nextOp env f = some .return ∧ f.ip + 1 = (env.ops f.chunkIdx).length ∨
    nextOp env f = none → ElseMatched (env.ops f.chunkIdx)
  /-- At an early `Return`: control has passed a yield, or the call of a chunk that delivers one. -/
  early : nextOp env f = some .return → f.ip + 1 < (env.ops f.chunkIdx).length →
    ¬SilentlyReaches (env.ops f.chunkIdx) (Delivers env.module) f.ip
  /-- At `Reset`: the same, or control can come to `Stream` without a yield and without a call. -/
  reset : nextOp env f = some .reset →
    ¬SilentlyReaches (env.ops f.chunkIdx) (Delivers env.module) f.ip ∨
      ∀ pos, env.streamIp f.chunkIdx = some pos →
        SilentlyReaches (env.ops f.chunkIdx) (fun _ => True) pos

/-- The innermost frame meets the condition, if its chunk always yields. -/
def ReturnStep (env : Env F) (vm : Vm F) : Prop :=
  ∀ f rest, vm.frames = f :: rest → f.chunkIdx ∈ computeAlwaysYielding env.module →
    ReturnOk env f

/-! ## The invariant

The record agrees with the control flow in the frames whose chunks are in `T`, where the calls that
count are those of the chunks in `A`. -/

section Invariant

variable {A T : ℕ → Prop}

/-- A frame is on record as having yielded, or waits for a callee that will, or has come silently to
its next instruction. -/
def Accounted (env : Env F) (A : ℕ → Prop) (pending : Prop) (f : CallFrame) (g : Bool) : Prop :=
  g = true ∨ pending ∨ SilentlyReaches (env.ops f.chunkIdx) A f.ip

/-- The callers of a chunk: each has yielded when a frame above it has. -/
inductive CallersYield (env : Env F) (A T : ℕ → Prop) :
    ℕ → Bool → List CallFrame → List Bool → Prop
  | nil {idx g} : CallersYield env A T idx g [] []
  | cons {idx g f rest g' gs} (hacc : T f.chunkIdx → Accounted env A (A idx) f g')
      (hup : g = true → g' = true) (hrest : CallersYield env A T f.chunkIdx g' rest gs) :
      CallersYield env A T idx g (f :: rest) (g' :: gs)

/-- The record agrees with the control flow. -/
inductive YieldInv (env : Env F) (A T : ℕ → Prop) : List CallFrame → List Bool → Prop
  | nil {gs} : YieldInv env A T [] gs
  | cons {f rest g gs} (hacc : T f.chunkIdx → Accounted env A False f g)
      (hrest : CallersYield env A T f.chunkIdx g rest gs) : YieldInv env A T (f :: rest) (g :: gs)

/-- What the invariant asks of the innermost frame: it has yielded when it ends, if its calls count,
and goes on behind `Stream` when it resets. -/
structure EndsWell (env : Env F) (A T : ℕ → Prop) (f : CallFrame) (g : Bool) : Prop where
  ends : A f.chunkIdx → nextOp env f = some .return ∨ nextOp env f = none → g = true
  resets : T f.chunkIdx → nextOp env f = some .reset → ∀ pos, env.streamIp f.chunkIdx = some pos →
    g = true ∨ SilentlyReaches (env.ops f.chunkIdx) A pos

theorem YieldInv.head {f : CallFrame} {rest : List CallFrame} {g : Bool} {gs : List Bool}
    (h : YieldInv env A T (f :: rest) (g :: gs)) (hf : T f.chunkIdx) :
    g = true ∨ SilentlyReaches (env.ops f.chunkIdx) A f.ip := by
  cases h with
  | cons hacc _ => exact (hacc hf).imp_right fun h => h.resolve_left id

/-- After a `Yield` every frame is on record. -/
theorem CallersYield.yield {idx : ℕ} {g : Bool} {rest : List CallFrame} {gs : List Bool}
    (h : CallersYield env A T idx g rest gs) :
    CallersYield env A T idx true rest (gs.map fun _ => true) := by
  induction h with
  | nil => exact .nil
  | cons _ _ _ ih => exact .cons (fun _ => .inl rfl) (fun _ => rfl) ih

/-- A frame that goes on accounts for what the instruction does. -/
theorem Accounted.next {p : Prop} {f : CallFrame} {g : Bool} {op : Op} {ip' : ℕ}
    (h : Accounted env A False f g) (hop : (env.ops f.chunkIdx)[f.ip]? = some op)
    (hn : ip' ∈ op.next f.ip) (hy : op.Yields A → p) : Accounted env A p { f with ip := ip' } g := by
  rcases h with hg | hfalse | hs
  · exact .inl hg
  · exact hfalse.elim
  · by_cases hyields : op.Yields A
    · exact .inr (.inl (hy hyields))
    · exact .inr (.inr (hs.next hop hn hyields))

/-- The caller of a chunk that has ended. -/
theorem CallersYield.resumed {idx : ℕ} {g : Bool} {rest : List CallFrame} {gs : List Bool}
    (h : CallersYield env A T idx g rest gs) (hends : A idx → g = true) :
    YieldInv env A T rest gs := by
  cases h with
  | nil => exact .nil
  | cons hacc hup hrest =>
    refine .cons (fun hf => ?_) hrest
    rcases hacc hf with hg | hidx | hs
    · exact .inl hg
    · exact .inl (hup (hends hidx))
    · exact .inr (.inr hs)

/-- **A step keeps the record in agreement with the control flow.** -/
theorem YieldInv.exec {vm vm' : Vm F} {o : Outcome F} {gs : List Bool}
    (h : YieldInv env A T vm.frames gs)
    (hok : ∀ f rest g gs', vm.frames = f :: rest → gs = g :: gs' → EndsWell env A T f g)
    (hs : (step env).run vm = .ok (o, vm')) :
    YieldInv env A T vm'.frames ((yieldRecord env).exec vm gs) := by
  have hexec {f : CallFrame} {rest : List CallFrame} (hf : vm.frames = f :: rest) {op : Option Op}
      (hop : (env.ops f.chunkIdx)[f.ip]? = op) :
      (yieldRecord env).exec vm gs = yieldedAfter op gs := by
    rw [yieldRecord]
    dsimp only
    rw [hf]
    dsimp only
    rw [nextOp, hop]
  cases step_moved hs with
  | @advance f rest op ip' _ ha hstays =>
    rw [ha.frames] at h
    rw [ha.frames', hexec ha.frames ha.op_at]
    cases h with
    | cons hacc hrest =>
      have hkeep : ∀ g, yieldedAfter (some op) g = g ∧ ¬op.Yields A := by
        intro g
        cases op <;> first | exact hstays.elim | exact ⟨rfl, id⟩
      rw [(hkeep _).1]
      exact .cons (fun hf => (hacc hf).next ha.op_at ha.next fun hy => absurd hy (hkeep []).2) hrest
  | @reset f rest pos _ hf hop hlen hpos hf' =>
    rw [hf] at h
    rw [hf', hexec hf hop]
    cases h with
    | @cons _ _ g gs' hacc hrest =>
      refine .cons (fun hmem => ?_) hrest
      rcases (hok f rest g gs' hf rfl).resets hmem hop pos hpos with hg | hsilent
      · exact .inl hg
      · exact .inr (.inr (hsilent.next (streamIp_getElem? hpos) (List.mem_singleton_self _) id))
  | @call f rest idx n _ hf hop hidx hn hlc hf' =>
    rw [hf] at h
    rw [hf', hexec hf hop]
    cases h with
    | cons hacc hrest =>
      refine .cons (fun _ => .inr (.inr .refl)) (.cons (fun hmem => ?_) nofun hrest)
      exact (hacc hmem).next hop (List.mem_singleton_self _) id
  | @returnTo f rest v _ hf hop hv' hne hf' =>
    rw [hf] at h
    rw [hf', hexec hf hop]
    cases h with
    | @cons _ _ g gs' hacc hrest =>
      exact hrest.resumed fun hmem => (hok f rest g gs' hf rfl).ends hmem (.inl hop)
  | @runOffTo f rest _ hf hop hne hf' =>
    rw [hf] at h
    rw [hf', hexec hf hop]
    cases h with
    | @cons _ _ g gs' hacc hrest =>
      exact hrest.resumed fun hmem => (hok f rest g gs' hf rfl).ends hmem (.inr hop)
  | @finish f v _ hf hop hf' =>
    rw [hf']
    exact .nil
  | @yield f rest v w _ hf hop hv' hf' =>
    rw [hf] at h
    rw [hf', hexec hf hop]
    cases h with
    | cons hacc hrest => exact .cons (fun _ => .inl rfl) hrest.yield

theorem YieldInv.start {c : ℕ} {cfg : Config F} (h : Entered env c cfg) :
    YieldInv env A T cfg.vm.frames [false] := by
  obtain ⟨vm, shared, args, hidle, hcall, -⟩ := h
  obtain ⟨-, -, -, -, hframes, -, -⟩ := callFunction_ok hidle hcall
  rw [hframes]
  exact .cons (fun _ => .inr (.inr .refl)) .nil

end Invariant

/-! ## Chunks that deliver -/

/-- The chunks in which the record follows the ways that deliver. -/
def Tracked (m : Module) (i : ℕ) : Prop := Delivers m i ∨ i ∈ computeAlwaysYielding m

/-- A chunk that delivers has yielded when it ends or resets. -/
theorem YieldInv.delivers {f : CallFrame} {rest : List CallFrame} {g : Bool} {gs : List Bool}
    (h : YieldInv env (Delivers env.module) (Tracked env.module) (f :: rest) (g :: gs))
    (hf : Delivers env.module f.chunkIdx)
    (hend : nextOp env f = some .return ∨ nextOp env f = none ∨ nextOp env f = some .reset) :
    g = true := by
  rcases h.head (.inl hf) with hg | hs
  · exact hg
  · obtain ⟨c, hc⟩ : ∃ c, env.chunk? f.chunkIdx = some c := by
      cases hf with
      | intro hc _ _ => exact ⟨_, hc⟩
    rw [ops_of_chunk? hc] at hs
    obtain ⟨op, hop, hne, hne'⟩ := hf.ends hc hs
    rw [nextOp, ops_of_chunk? hc, hop] at hend
    rcases hend with hend | hend | hend
    · exact absurd (Option.some.inj hend) hne
    · cases hend
    · exact absurd (Option.some.inj hend) hne'

/-- The condition is what the record of the ways that deliver relies on. -/
theorem YieldInv.endsWell {vm : Vm F} {gs : List Bool}
    (h : YieldInv env (Delivers env.module) (Tracked env.module) vm.frames gs)
    (hok : ReturnStep env vm) {f : CallFrame} {rest : List CallFrame} {g : Bool} {gs' : List Bool}
    (hf : vm.frames = f :: rest) (hgs : gs = g :: gs') :
    EndsWell env (Delivers env.module) (Tracked env.module) f g := by
  rw [hf, hgs] at h
  refine ⟨fun hdel hend => h.delivers hdel (hend.imp_right .inl), fun hmem hop pos hpos => ?_⟩
  rcases hmem with hdel | hmem
  · exact .inl (h.delivers hdel (.inr (.inr hop)))
  · rcases (hok f rest hf hmem).reset hop with hsilent | hstream
    · exact .inl ((h.head (.inr hmem)).resolve_right hsilent)
    · exact .inr ((hstream pos hpos).anti fun _ _ => trivial)

section Accepted

variable (hv : verify env.module = .ok ())
include hv

/-- A chunk that the walk accepts is silent neither at its last instruction nor behind it. -/
theorem not_silent_at_end {f : CallFrame} (hmem : f.chunkIdx ∈ computeAlwaysYielding env.module)
    (hm : ElseMatched (env.ops f.chunkIdx))
    (hend : nextOp env f = some .return ∧ f.ip + 1 = (env.ops f.chunkIdx).length ∨
      nextOp env f = none) :
    ¬SilentlyReaches (env.ops f.chunkIdx) (· ∈ computeAlwaysYielding env.module) f.ip := by
  intro hs
  obtain ⟨c, hc, hcov⟩ := computeAlwaysYielding_justified env.module _ hmem
  have hops : env.ops f.chunkIdx = c.ops := ops_of_chunk? hc
  rw [hops] at hm hs hend
  obtain ⟨op, hop, hret⟩ := (accepted_of_chunk? hv hc).covers (P := (· + 1 = c.ops.length)) hm hcov
    (fun p _ hlt hlast => absurd hlast hlt.ne) (silentlyReaches_iff.mp hs)
  rw [nextOp, hops, hop] at hend
  rcases hend with ⟨hend, hlast⟩ | hend
  · cases hret (Option.some.inj hend) hlast
  · cases hend

/-- A chunk that always yields has yielded when it ends. -/
theorem YieldInv.ends {f : CallFrame} {rest : List CallFrame} {g : Bool} {gs : List Bool}
    (hdel : YieldInv env (Delivers env.module) (Tracked env.module) (f :: rest) (g :: gs))
    (h : YieldInv env (· ∈ computeAlwaysYielding env.module) (· ∈ computeAlwaysYielding env.module)
      (f :: rest) (g :: gs))
    (hmem : f.chunkIdx ∈ computeAlwaysYielding env.module) (hok : ReturnOk env f)
    (hend : nextOp env f = some .return ∨ nextOp env f = none) : g = true := by
  have hlast : nextOp env f = some .return ∧ f.ip + 1 = (env.ops f.chunkIdx).length ∨
      nextOp env f = none → g = true := fun hlast =>
    (h.head hmem).resolve_right (not_silent_at_end hv hmem (hok.matched hlast) hlast)
  rcases hend with hop | hop
  · have hlt : f.ip < (env.ops f.chunkIdx).length := (List.getElem?_eq_some_iff.mp hop).1
    by_cases hearly : f.ip + 1 < (env.ops f.chunkIdx).length
    · exact (hdel.head (.inr hmem)).resolve_right (hok.early hop hearly)
    · exact hlast (.inl ⟨hop, by omega⟩)
  · exact hlast (.inr hop)

/-- The records of the ways that deliver and of those that the walk follows agree with the control
flow in every run whose steps meet the condition. -/
theorem yieldInv {c : ℕ} {cfg : Config F} {gs : List Bool}
    (h : (yieldRecord env).Reaches env (ReturnStep env) c cfg gs) :
    YieldInv env (Delivers env.module) (Tracked env.module) cfg.vm.frames gs ∧
      YieldInv env (· ∈ computeAlwaysYielding env.module) (· ∈ computeAlwaysYielding env.module)
        cfg.vm.frames gs := by
  induction h with
  | start h => exact ⟨.start h, .start h⟩
  | @exec vm vm' o gs _ hok hs ih =>
    obtain ⟨hdel, hwalk⟩ := ih
    refine ⟨hdel.exec (fun f rest g gs' => hdel.endsWell hok) hs,
      hwalk.exec (fun f rest g gs' hf hgs => ?_) hs⟩
    dsimp only at hdel hwalk
    rw [hf, hgs] at hdel hwalk
    refine ⟨fun hmem => hdel.ends hv hwalk hmem (hok f rest hf hmem), fun hmem hop pos hpos => ?_⟩
    rcases (hok f rest hf hmem).reset hop with hsilent | hstream
    · exact .inl ((hdel.head (.inr hmem)).resolve_right hsilent)
    · exact .inr ((hstream pos hpos).anti fun _ _ => trivial)
  | resume _ shared input hst hs ih =>
    rw [(resume_ok hs).frames]
    exact ih

/-- **A chunk that is found to yield on every path has yielded when it ends**, in every run whose
steps meet the condition. -/
theorem alwaysYielding_yields {c : ℕ} {vm : Vm F} {gs : List Bool}
    (h : (yieldRecord env).Reaches env (ReturnStep env) c ⟨vm, .running⟩ gs)
    (hok : ReturnStep env vm) :
    (∀ i ∈ computeAlwaysYielding env.module, i < env.module.chunks.length) ∧
      EndsYielded env vm gs := by
  constructor
  · intro i hi
    obtain ⟨c, hc, -⟩ := computeAlwaysYielding_justified env.module i hi
    exact (List.getElem?_eq_some_iff.mp hc).1
  · intro f rest hf hmem hend
    obtain ⟨hdel, hwalk⟩ := yieldInv hv h
    rw [hf] at hdel hwalk
    cases gs with
    | nil => cases hwalk
    | cons g gs =>
      rw [hdel.ends hv hwalk hmem (hok f rest hf hmem) hend, List.head?_cons]

end Accepted

/-- A function that yields and returns what it is resumed with, early or late. -/
def yieldsTwice : Module := plainModule [plainChunk [.pushImmediate 11, .yield, .popN 1,
  .pushImmediate 1, .ifOp 7, .pushImmediate 11, .return, .endIf, .pushImmediate 11, .return]
    .reentrant 0 0]

/-- Every state of `yieldsTwice` meets the condition. -/
theorem yieldsTwice_step (vm : Vm Unit) : ReturnStep (plainEnv yieldsTwice) vm := by
  intro f rest hf hmem
  obtain ⟨idx, ip, base⟩ := f
  have hset : computeAlwaysYielding (plainEnv yieldsTwice).module = [0] := rfl
  obtain rfl : idx = 0 := by
    rw [hset] at hmem
    exact List.mem_singleton.mp hmem
  refine ⟨fun _ => ?_, fun hop _ hs => ?_, fun hop => ?_⟩
  · rintro p t helse
    rcases p with _ | _ | _ | _ | _ | _ | _ | _ | _ | _ | p <;> cases helse
  · -- control passes the yield before it comes to a `Return`
    have hip : ip ∈ [0, 1] := hs.mem (by decide)
      (show ∀ p ∈ [0, 1], ∀ op ∈ ((plainEnv yieldsTwice).ops 0)[p]?, op ≠ .yield →
        ∀ q ∈ op.next p, q ∈ [0, 1] by decide)
    rcases List.mem_pair.mp hip with rfl | rfl <;> cases hop
  · exact absurd (List.mem_of_getElem? hop)
      (show Op.reset ∉ (plainEnv yieldsTwice).ops 0 by decide)

/-- The early `Return` of `yieldsTwice` is reached after a yield. -/
theorem yieldsTwice_yields : ∃ vm gs, (yieldRecord (plainEnv yieldsTwice)).Reaches
    (plainEnv yieldsTwice) (ReturnStep (plainEnv yieldsTwice)) 0 ⟨vm, .running⟩ gs ∧
      vm.frames = [⟨0, 6, 0⟩] ∧ nextOp (plainEnv yieldsTwice) ⟨0, 6, 0⟩ = some .return ∧
      EndsYielded (plainEnv yieldsTwice) vm gs := by
  have hreach : (yieldRecord (plainEnv yieldsTwice)).Reaches (plainEnv yieldsTwice)
      (fun _ => True) 0 ⟨_, .running⟩ _ :=
    Monitor.playCall_reaches freshVm_idle (show Monitor.playCall _ _ freshVm 0 []
      [none, none, some .unit, none, none, none, none] = some _ from rfl)
  have hstep := hreach.mono fun vm _ => yieldsTwice_step vm
  exact ⟨_, _, hstep, rfl, rfl, (alwaysYielding_yields rfl hstep (yieldsTwice_step _)).2⟩

/-! ## An early return -/

/-- A stream that leaves its yield to a function, which returns early before it has yielded. -/
def returnsEarly : Module := plainModule [
  plainChunk [.stream, .call 1 0, .popN 1, .reset] .stream 0 0,
  plainChunk [.pushImmediate 1, .ifOp 4, .pushImmediate 11, .return, .endIf, .pushImmediate 11,
    .yield, .return] .reentrant 0 0]

/-- **An accepted module names a chunk that returns without a yield.** -/
theorem returnsEarly_unyielded : verify returnsEarly = .ok () ∧
    1 ∈ computeAlwaysYielding returnsEarly ∧
    ∃ vm gs, (yieldRecord (plainEnv returnsEarly)).Reaches (plainEnv returnsEarly) (fun _ => True) 0
      ⟨vm, .running⟩ gs ∧ vm.frames = [⟨1, 3, 0⟩, ⟨0, 2, 0⟩] ∧
      ¬EndsYielded (plainEnv returnsEarly) vm gs := by
  refine ⟨rfl, by decide, _, _, Monitor.playCall_reaches freshVm_idle
    (show Monitor.playCall _ _ freshVm 0 [] (List.replicate 5 none) = some _ from rfl), rfl,
    fun h => ?_⟩
  cases h ⟨1, 3, 0⟩ [⟨0, 2, 0⟩] rfl (by decide) (.inl rfl)

end Keleusma
