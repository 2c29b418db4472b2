import Keleusma.Control.Nesting
import Keleusma.Verify.Depth
import Keleusma.Verify.Init
import Keleusma.Verify.Typed

/-!
# Acceptance of a module

`verify` runs the passes in their order: the control-flow targets of every chunk, the structure
and the operand depth of each chunk, definite initialisation, and the typed pass. It stops at the
first fault, so an accepted module has passed every check. This module takes the acceptance apart
once: `verify_chunkAccepted` lists what holds of each chunk.
-/

namespace Keleusma

/-! ## The passes -/

/-- Structural verification of a chunk, then its operand depth. -/
def verifyChunkAndDepth (m : Module) (always : List ℕ) (chunk : Chunk) : Except Fault Unit := do
  verifyChunk m always chunk
  verifyStackDepth chunk

/-- Verify a module. -/
def verify (m : Module) : Except VerifyError Unit := do
  m.chunks.forM fun chunk => inChunk chunk (checkForwardControlFlowTargets chunk)
  m.chunks.forM fun chunk =>
    inChunk chunk (verifyChunkAndDepth m (computeAlwaysYielding m) chunk)
  verifyDefiniteInitialization m
  (typedCheckModule m).mapError fun e => ⟨"<typed operand-stack pass>", .typed e⟩

/-- Whether a module is accepted. -/
def accepts (m : Module) : Bool := (verify m).isOk

/-! ## What acceptance says -/

variable {m : Module} {chunk : Chunk}

theorem bind_eq_ok {α β ε : Type} {x : Except ε α} {k : α → Except ε β} {b : β}
    (h : (x >>= k) = .ok b) : ∃ a, x = .ok a ∧ k a = .ok b := by
  cases x with
  | error e => cases h
  | ok a => exact ⟨a, rfl, h⟩

theorem map_eq_ok {α β ε : Type} {x : Except ε α} {f : α → β} {b : β} (h : f <$> x = .ok b) :
    ∃ a, x = .ok a ∧ f a = b := by
  cases x with
  | error e => cases h
  | ok a => exact ⟨a, rfl, Except.ok.inj h⟩

theorem mapError_eq_ok {α ε ε' : Type} {x : Except ε α} {f : ε → ε'} {a : α}
    (h : x.mapError f = .ok a) : x = .ok a := by
  cases x with
  | error e => cases h
  | ok b => cases h; rfl

theorem forM_eq_ok {α ε : Type} {f : α → Except ε Unit} {l : List α} (h : l.forM f = .ok ()) :
    ∀ x ∈ l, f x = .ok () := by
  induction l with
  | nil => intro x hx; cases hx
  | cons y l ih =>
    obtain ⟨u, hy, hl⟩ := bind_eq_ok h
    intro x hx
    rcases List.mem_cons.mp hx with rfl | hx
    · exact hy
    · exact ih hl x hx

theorem forEachOp_eq_ok {check : ℕ → Op → Except Fault Unit} {start : ℕ} {ops : List Op}
    (h : forEachOp check start ops = .ok ()) {i : ℕ} {op : Op} (hop : ops[i]? = some op) :
    check (start + i) op = .ok () := by
  induction ops generalizing start i with
  | nil => cases hop
  | cons o ops ih =>
    obtain ⟨u, ho, hrest⟩ := bind_eq_ok h
    cases i with
    | zero =>
      cases hop
      exact ho
    | succ i =>
      have := ih hrest hop
      rwa [Nat.add_assoc, Nat.add_comm 1 i] at this

/-- What acceptance of a module says about one of its chunks. -/
structure ChunkAccepted (m : Module) (chunk : Chunk) : Prop where
  forward : checkForwardControlFlowTargets chunk = .ok ()
  nesting : checkNesting m chunk = .ok ()
  blockType : checkBlockType (computeAlwaysYielding m) chunk = .ok ()
  productive : checkProductive (computeAlwaysYielding m) chunk = .ok ()
  depth : verifyStackDepth chunk = .ok ()
  locals : checkLocals chunk = .ok ()

/-- An accepted module passes the typed pass, and every chunk all others. -/
theorem verify_accepted (h : verify m = .ok ()) :
    (∀ chunk ∈ m.chunks, ChunkAccepted m chunk) ∧ typedCheckModule m = .ok () := by
  obtain ⟨_, hforward, h⟩ := bind_eq_ok h
  obtain ⟨_, hchunk, h⟩ := bind_eq_ok h
  obtain ⟨_, hinit, htyped⟩ := bind_eq_ok h
  obtain ⟨_, hlocals, -⟩ := bind_eq_ok hinit
  refine ⟨fun chunk hc => ?_, mapError_eq_ok htyped⟩
  obtain ⟨_, hstruct, hdepth⟩ := bind_eq_ok (mapError_eq_ok (forM_eq_ok hchunk chunk hc))
  obtain ⟨_, hnesting, hstruct⟩ := bind_eq_ok hstruct
  obtain ⟨_, htype, hproductive⟩ := bind_eq_ok hstruct
  exact ⟨mapError_eq_ok (forM_eq_ok hforward chunk hc), hnesting, htype, hproductive, hdepth,
    mapError_eq_ok (forM_eq_ok hlocals chunk hc)⟩

/-- The modules that `accepts` admits are the ones `verify` admits. -/
theorem verify_of_accepts {m : Module} (h : accepts m = true) : verify m = .ok () := by
  unfold accepts at h
  cases hv : verify m with
  | ok _ => rfl
  | error _ =>
    rw [hv] at h
    cases h

theorem verify_chunkAccepted (h : verify m = .ok ()) (hc : chunk ∈ m.chunks) :
    ChunkAccepted m chunk :=
  (verify_accepted h).1 chunk hc

/-! ## Local slots -/

theorem ChunkAccepted.slot_lt (h : ChunkAccepted m chunk) {ip slot : ℕ} {op : Op}
    (hop : chunk.ops[ip]? = some op) (hslot : op = .getLocal slot ∨ op = .setLocal slot) :
    slot < chunk.localCount := by
  have ho := checkNesting_operands h.nesting hop
  rcases hslot with rfl | rfl
  all_goals
    simp only [checkOperands, inTable] at ho
    split at ho
    · cases ho
    · omega

/-! ## Calls -/

/-- The chunks that an accepted chunk calls are there. -/
theorem ChunkAccepted.call_lt (h : ChunkAccepted m chunk) {callee n : ℕ}
    (hop : Op.call callee n ∈ chunk.ops) : callee < m.chunks.length := by
  obtain ⟨ip, hip⟩ := List.mem_iff_getElem?.mp hop
  have ho := checkNesting_operands h.nesting hip
  simp only [checkOperands] at ho
  split at ho
  · cases ho
  next c hc => exact (List.getElem?_eq_some_iff.mp hc).1

/-! ## Markers -/

theorem forbid_eq_ok {op : Op} (h : forbid chunk op = .ok ()) : op ∉ chunk.ops := by
  unfold forbid at h
  split at h
  next hz => exact List.count_eq_zero.mp hz
  · cases h

/-- An instruction that occurs once has one position. -/
theorem position_unique {op : Op} {ops : List Op} (h : ops.count op = 1) {i j : ℕ}
    (hi : ops[i]? = some op) (hj : ops[j]? = some op) : i = j := by
  induction ops generalizing i j with
  | nil => cases hi
  | cons o ops ih =>
    by_cases ho : o = op
    · subst ho
      have hnot : o ∉ ops := by
        rw [List.count_cons_self] at h
        exact List.count_eq_zero.mp (by omega)
      cases i with
      | zero =>
        cases j with
        | zero => rfl
        | succ j => exact absurd (List.mem_of_getElem? (l := ops) hj) hnot
      | succ i => exact absurd (List.mem_of_getElem? (l := ops) hi) hnot
    · rw [List.count_cons_of_ne ho] at h
      cases i with
      | zero => exact absurd (Option.some.inj hi) ho
      | succ i =>
        cases j with
        | zero => exact absurd (Option.some.inj hj) ho
        | succ j => rw [ih h hi hj]

theorem requireOnce_eq_ok {op : Op} (h : requireOnce chunk op = .ok ()) :
    chunk.ops.count op = 1 := by
  unfold requireOnce at h
  split at h
  next h1 => exact h1
  · cases h

/-- Only the chunks of streams contain `Stream` and `Reset`, each exactly once. -/
theorem checkBlockType_markers {always : List ℕ} (h : checkBlockType always chunk = .ok ())
    (ho : .stream ∈ chunk.ops ∨ .reset ∈ chunk.ops) :
    chunk.blockType = .stream ∧ chunk.ops.count .stream = 1 ∧ chunk.ops.count .reset = 1 := by
  unfold checkBlockType at h
  split at h
  next hb =>
    obtain ⟨_, -, h⟩ := bind_eq_ok h
    obtain ⟨_, hs, hr⟩ := bind_eq_ok h
    rcases ho with ho | ho
    · exact absurd ho (forbid_eq_ok hs)
    · exact absurd ho (forbid_eq_ok hr)
  next hb =>
    obtain ⟨_, -, h⟩ := bind_eq_ok h
    obtain ⟨_, hs, hr⟩ := bind_eq_ok h
    rcases ho with ho | ho
    · exact absurd ho (forbid_eq_ok hs)
    · exact absurd ho (forbid_eq_ok hr)
  next hb =>
    obtain ⟨_, hs, h⟩ := bind_eq_ok h
    obtain ⟨_, hr, -⟩ := bind_eq_ok h
    exact ⟨hb, requireOnce_eq_ok hs, requireOnce_eq_ok hr⟩

theorem ChunkAccepted.markers (h : ChunkAccepted m chunk)
    (ho : .stream ∈ chunk.ops ∨ .reset ∈ chunk.ops) :
    chunk.blockType = .stream ∧ chunk.ops.count .stream = 1 ∧ chunk.ops.count .reset = 1 :=
  checkBlockType_markers h.blockType ho

theorem ChunkAccepted.stream_unique (h : ChunkAccepted m chunk) {i j : ℕ}
    (hi : chunk.ops[i]? = some .stream) (hj : chunk.ops[j]? = some .stream) : i = j :=
  position_unique (h.markers (.inl (List.mem_of_getElem? hi))).2.1 hi hj

end Keleusma
