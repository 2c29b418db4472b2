import Keleusma.Control.Transfers
import Keleusma.Safety.Initialisation

/-!
# Structured control flow

The structural verification accepts trees of blocks in which an `Else` may name any `EndIf`, and
places no constraint on where `Stream` and `Reset` stand. `structured_iff` says what that leaves
open: the control flow of an accepted chunk is structured exactly when its `Else` operands name
their own `EndIf`, and the block structure around an executed `Reset` is that around its `Stream`.
-/

namespace Keleusma

variable {F : Type} {env : Env F}

/-- Where a frame goes from an instruction: to a position that the instruction names, or from
`Reset` to the position after `Stream`. -/
def Follows (ops : List Op) (q q' : ℕ) : Prop :=
  ∃ op, ops[q]? = some op ∧
    (q' ∈ op.next q ∨ op = .reset ∧ ∃ s, ops[s]? = some .stream ∧ q' = s + 1)

/-- A step takes the innermost frame, which executes the given chunk, from a position to
another one. -/
def Transfers (env : Env F) (chunkIdx : ℕ) (vm : Vm F) (q q' : ℕ) : Prop :=
  ∃ f rest o vm' f', step env vm = .ok (o, vm') ∧ vm.frames = f :: rest ∧ f.chunkIdx = chunkIdx ∧
    f' :: rest <:+ vm'.frames ∧ q = f.ip ∧ q' = f'.ip

/-- The control flow of a chunk is structured: its instructions are a tree of blocks, and every
transfer in every run goes where its instruction says and respects the blocks. -/
structure Structured (env : Env F) (chunkIdx : ℕ) (ops : List Op) : Prop where
  nested : WellNested ops
  transfers : ∀ entry vm q q', Reaches env entry ⟨vm, .running⟩ →
    Transfers env chunkIdx vm q q' → Follows ops q q' ∧ TransferOk ops q q'

/-- `Stream` and `Reset` lie in the same blocks, as far as it matters for a transfer from `Reset`:
no block is entered, and no loop left. -/
def MarkersTogether (ops : List Op) : Prop :=
  ∀ s r, ops[s]? = some .stream → ops[r]? = some .reset →
    (∀ p e, Block ops p e → Inside p e s → Inside p e r) ∧
    (∀ p e, LoopBlock ops p e → Inside p e r → Inside p e s)

/-- Some run executes the `Reset` of the chunk. -/
def ResetExecuted (env : Env F) (chunkIdx : ℕ) (ops : List Op) : Prop :=
  ∃ entry vm q q', Reaches env entry ⟨vm, .running⟩ ∧ Transfers env chunkIdx vm q q' ∧
    ops[q]? = some .reset

theorem cons_suffix_eq {α : Type} {a b : α} {l : List α} (h : a :: l <:+ b :: l) : a = b :=
  (List.cons.inj (h.eq_of_length rfl)).1

/-- Every transfer goes where its instruction says. -/
theorem Transfers.follows {chunkIdx q q' : ℕ} {c : Chunk} {vm : Vm F}
    (hc : env.chunk? chunkIdx = some c) (h : Transfers env chunkIdx vm q q') :
    Follows c.ops q q' := by
  obtain ⟨f, rest, o, vm', f', hs, hf, rfl, hsuf, rfl, rfl⟩ := h
  have hops := ops_of_chunk? hc
  rw [← hops]
  have hshort : ∀ {rest' : List CallFrame}, rest' = rest → ¬f' :: rest <:+ rest' := by
    rintro _ rfl hsuf
    have := hsuf.length_le
    simp only [List.length_cons] at this
    omega
  cases step_moved hs with
  | advance h hstays =>
    cases hf.symm.trans h.frames
    rw [h.frames'] at hsuf
    rw [cons_suffix_eq hsuf]
    exact ⟨_, h.op_at, .inl h.next⟩
  | @reset g rest' pos _ hg hop hlen hpos hf' =>
    cases hf.symm.trans hg
    rw [hf'] at hsuf
    rw [cons_suffix_eq hsuf]
    exact ⟨_, hop, .inr ⟨rfl, pos, streamIp_getElem? hpos, rfl⟩⟩
  | call hg hop hidx hn hlc hf' =>
    cases hf.symm.trans hg
    rw [hf', List.suffix_cons_iff] at hsuf
    rcases hsuf with he | hsuf
    · have := congrArg List.length he
      simp at this
    · rw [cons_suffix_eq hsuf]
      exact ⟨_, hop, .inl (List.mem_singleton_self _)⟩
  | returnTo hg hop hv hrest hf' =>
    cases hf.symm.trans hg
    exact (hshort hf' hsuf).elim
  | runOffTo hg hop hrest hf' =>
    cases hf.symm.trans hg
    exact (hshort hf' hsuf).elim
  | finish hg hop hf' =>
    cases hf.symm.trans hg
    exact (hshort hf' hsuf).elim
  | yield hg hop hv hf' =>
    cases hf.symm.trans hg
    rw [hf'] at hsuf
    rw [cons_suffix_eq hsuf]
    exact ⟨_, hop, .inl (List.mem_singleton_self _)⟩

/-- A transfer from `Reset` to behind `Stream` respects the blocks when the two lie together. -/
theorem MarkersTogether.transferOk {ops : List Op} {r s : ℕ} (h : MarkersTogether ops)
    (hs : ops[s]? = some .stream) (hr : ops[r]? = some .reset) : TransferOk ops r (s + 1) := by
  obtain ⟨henter, hleave⟩ := h s r hs hr
  refine ⟨fun p e hb hout hin => ?_, fun p e hl hin hout => ?_⟩
  · exact absurd (henter p e hb ((hb.inside_stream hs).mp hin)) hout
  · exact absurd ((hl.block.inside_stream hs).mpr (hleave p e hl hin)) hout

theorem MarkersTogether.of_transferOk {ops : List Op} {r s : ℕ} (hs : ops[s]? = some .stream)
    (hr : ops[r]? = some .reset) (h : TransferOk ops r (s + 1)) :
    (∀ p e, Block ops p e → Inside p e s → Inside p e r) ∧
      (∀ p e, LoopBlock ops p e → Inside p e r → Inside p e s) := by
  refine ⟨fun p e hb hin => ?_, fun p e hl hin => ?_⟩
  · by_contra hout
    obtain rfl := h.enters p e hb hout ((hb.inside_stream hs).mpr hin)
    exact hb.not_leaf hr fun t => ⟨nofun, nofun⟩
  · by_contra hout
    obtain ⟨⟨t, ht | ht⟩, -⟩ := h.leaves p e hl hin fun h =>
      hout ((hl.block.inside_stream hs).mp h)
    all_goals cases hr.symm.trans ht

/-- **Control flow is structured when the `Else` operands name their own `EndIf` and the executed
resets stay in the blocks of their `Stream`, and not otherwise.** -/
theorem structured_iff {always : List ℕ} {chunkIdx : ℕ} {c : Chunk}
    (hc : env.chunk? chunkIdx = some c) (hv : verifyChunk env.module always c = .ok ()) :
    Structured env chunkIdx c.ops ↔
      ElseMatched c.ops ∧ (ResetExecuted env chunkIdx c.ops → MarkersTogether c.ops) := by
  obtain ⟨_, hnesting, hv⟩ := bind_eq_ok hv
  obtain ⟨_, htype, -⟩ := bind_eq_ok hv
  constructor
  · intro h
    refine ⟨h.nested.elseMatched, ?_⟩
    rintro ⟨entry, vm, q, q', hrun, ht, hreset⟩ s r hs hr
    obtain ⟨-, hstream, hcount⟩ := checkBlockType_markers htype (.inr (List.mem_of_getElem? hreset))
    obtain rfl := position_unique hcount hreset hr
    obtain ⟨⟨op, hop, hnext⟩, hok⟩ := h.transfers entry vm q q' hrun ht
    cases hreset.symm.trans hop
    rcases hnext with hnext | ⟨-, s', hs', rfl⟩
    · cases hnext
    · obtain rfl := position_unique hstream hs hs'
      exact MarkersTogether.of_transferOk hs hr hok
  · rintro ⟨helse, hmarkers⟩
    have hnested : WellNested c.ops := (checkNesting_region hnesting).matched helse
    refine ⟨hnested, fun entry vm q q' hrun ht => ?_⟩
    have hfollows := ht.follows hc
    refine ⟨hfollows, ?_⟩
    obtain ⟨op, hop, hnext | ⟨rfl, s, hs, rfl⟩⟩ := hfollows
    · exact hnested.transferOk hop hnext
    · exact (hmarkers ⟨entry, vm, q, _, hrun, ht, hop⟩).transferOk hs hop

/-- A chunk whose two branches meet at their own `EndIf`. -/
def matchedElse : Chunk :=
  plainChunk [.pushImmediate 1, .ifOp 4, .pushImmediate 0, .elseOp 5, .pushImmediate 0, .endIf,
    .return] .func 0 0

theorem matchedElse_structured :
    Structured (plainEnv (plainModule [matchedElse])) 0 matchedElse.ops := by
  refine (structured_iff (c := matchedElse) rfl
    (show verifyChunk _ [] matchedElse = .ok () from rfl)).mpr ⟨?_, ?_⟩
  · rintro (_ | _ | _ | _ | _ | _ | _ | ip) t h <;> cases h
    rfl
  · intro _ s r hs
    exact absurd (List.mem_of_getElem? hs) (by decide)

/-! ## An `Else` that jumps into another block -/

/-- A chunk whose first `Else` names the `EndIf` of the block behind its own. -/
def strayElse : Chunk :=
  plainChunk [.pushImmediate 1, .ifOp 4, .pushImmediate 0, .elseOp 8, .pushImmediate 0, .endIf,
    .pushImmediate 1, .ifOp 8, .endIf, .return] .func 0 0

/-- **An accepted module contains a chunk that is no tree of blocks.** -/
theorem strayElse_not_structured :
    verify (plainModule [strayElse]) = .ok () ∧
      verifyChunk (plainModule [strayElse]) [] strayElse = .ok () ∧
      ¬WellNested strayElse.ops ∧
      ¬Structured (plainEnv (plainModule [strayElse])) 0 strayElse.ops := by
  have hnested : ¬WellNested strayElse.ops := fun h => by
    have := h.elseMatched 3 8 rfl
    revert this
    decide
  exact ⟨rfl, rfl, hnested, fun h => hnested h.nested⟩

end Keleusma
