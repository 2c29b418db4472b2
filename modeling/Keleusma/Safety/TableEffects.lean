import Keleusma.Runtime.Hosting
import Keleusma.Verify.Accepted
import Keleusma.Safety.Monitor

/-!
# The handlers follow the tables

`FollowsEntry` says of a handler what an entry of the tables of the instruction set promises: the
height of the operand stack changes by the net effect, of the operands only the top ones that
the entry requires are popped or looked at, and the stack never rises above its height by more
than the entry of the peak model. Every instruction that neither suspends the machine nor changes
which frame is innermost follows its entry (`execInstr_follows`).

The other four are steps of a larger effect. `Call` hands its arguments to a frame, and with the
`Return` of that frame the height has changed by the entry of the call. `Yield` takes the operand
that the resume gives back. `Reset` drops the operands of its frame, whatever its entry says
(`reset_drops_operands`).
-/

namespace Keleusma

open StackEffect

variable {F α : Type} {env : Env F} {low p q : ℕ}

/-- Two machines that differ at most in the stack entries from `low` up to `high`. -/
abbrev Vm.Agree (low high : ℕ) (s t : Vm F) : Prop :=
  { s with stack := [] } = { t with stack := [] } ∧ s.stack.length = t.stack.length ∧
    ∀ i, i < low ∨ high ≤ i → s.stack[i]? = t.stack[i]?

/-- The chunks and the bases of the call frames. -/
def Vm.bases (s : Vm F) : List (ℕ × ℕ) := s.frames.map fun f => (f.chunkIdx, f.base)

/-- A handler follows an entry of the tables in a frame whose local slots end at `low`. -/
structure FollowsEntry (env : Env F) (low required : ℕ) (delta : Int) (growth : ℕ) (m : Exec F α) :
    Prop where
  height : ∀ s a s', m s = .ok (a, s') → required ≤ s.stack.length ∧
    (s'.stack.length : Int) = s.stack.length + delta ∧ s'.bases = s.bases
  below : ∀ s a s' i, m s = .ok (a, s') → low ≤ i → i < s.stack.length - required →
    s'.stack[i]? = s.stack[i]?
  /-- The operands below those required do not matter. -/
  reads : ∀ s t a s', s.Agree low (s.stack.length - required) t → m s = .ok (a, s') →
    ∃ t', m t = .ok (a, t') ∧ s'.Agree low (s.stack.length - required) t'
  /-- Room for `growth` more entries is room enough. -/
  peak : ∀ s, required ≤ s.stack.length →
    (∀ n < s.stack.length + growth, env.operandRoom n = true) →
    m s ≠ .error (.outOfArena "operand stack")

/-! ## Handlers that move the instruction pointer -/

/-- As `observed`, but for the instruction pointers of the frames. -/
abbrev observedBases (env : Env F) : Observer (Vm F) (Value F) (List (ℕ × ℕ)) VmError :=
  { observed env with keep := Vm.bases }

/-- The effect of a handler, which may move the instruction pointer. -/
abbrev Moves (env : Env F) (low p q : ℕ) (m : Exec F α) : Prop :=
  Effect (observedBases env) low p q m

theorem Eff.moves {m : Exec F α} (hm : Eff env low p q m) : Moves env low p q m :=
  hm.forget fun k => k.1.map fun f => (f.chunkIdx, f.base)

theorem moves_setIp (ip : ℕ) : Moves env low 0 0 (setIp ip : Exec F Unit) := by
  apply Effect.modify
  · intro s
    cases hf : s.frames <;> simp
  · intro s
    cases hf : s.frames <;> simp [hf, Vm.bases]
  · intro s
    cases hf : s.frames <;> simp [hf]

theorem moves_popBool (fault : String) : Moves env low 1 0 (popBool fault : Exec F Bool) := by
  refine (Eff.moves effect_pop).bind 0 0 rfl rfl (.inl rfl) fun v => ?_
  split
  · exact .pure _
  · exact .throw _ nofun nofun

/-- A handler followed by the report that the machine runs on. -/
theorem Moves.running {m : Exec F Unit} (hm : Moves env low p q m) :
    Moves env low p q (do m; return (.running : Outcome F)) :=
  hm.bind 0 0 (by simp) (by simp) (.inr (Nat.zero_le _)) fun _ => .pure _

/-- The instructions that stay in their frame have the effect of their entry in the depth table. -/
theorem moves_execInstr (f : CallFrame) {op : Op} (hstays : op.Stays)
    (hset : ∀ slot, op ≠ .setLocal slot) :
    Moves env (op.reach f.base) (opRequires op) (op.results env) (execInstr env f op) := by
  by_cases hp : op.Plain
  · rw [execInstr_plain hp]
    exact Moves.running (effect_execOp f.chunkIdx f.base op hp hset).moves
  · cases op with
    | ifOp t =>
      apply (moves_popBool _).bind 0 0 rfl rfl (.inl rfl)
      intro b
      cases b
      · exact Moves.running (moves_setIp t)
      · exact .pure _
    | breakIf t =>
      apply (moves_popBool _).bind 0 0 rfl rfl (.inl rfl)
      intro b
      cases b
      · exact .pure _
      · exact Moves.running (moves_setIp t)
    | elseOp t => exact Moves.running (moves_setIp t)
    | endLoop t => exact Moves.running (moves_setIp t)
    | «break» t => exact Moves.running (moves_setIp t)
    | endIf => exact .pure _
    | loop t => exact .pure _
    | stream => exact .pure _
    | reset => exact hstays.elim
    | call idx n => exact hstays.elim
    | «return» => exact hstays.elim
    | yield => exact hstays.elim
    | _ => exact absurd trivial hp

/-! ## Following an entry -/

/-- An effect follows the entry that states its net and does not rise above its growth. -/
theorem FollowsEntry.of_moves {m : Exec F α} {growth : ℕ} {delta : Int} (hm : Moves env low p q m)
    (hdelta : (q : Int) - p = delta) (hgrowth : q ≤ p + growth) :
    FollowsEntry env low p delta growth m where
  height s a s' h := by
    obtain ⟨hp, hlen, -, hkeep⟩ := hm.ok s a s' h
    have hlen : s'.stack.length = s.stack.length - p + q := hlen
    have hp : p ≤ s.stack.length := hp
    exact ⟨hp, by omega, hkeep⟩
  below s a s' i h _ hi := by
    have htake := congrArg (·[i]?) (hm.ok s a s' h).2.2.1
    simpa only [List.getElem?_take, hi, if_true] using htake
  reads s t a s' hst h := by
    obtain ⟨t', ht, hst'⟩ :=
      hm.reads s t a s' _ (Nat.le_refl _) ⟨hst.1, hst.2.1, hst.2.2⟩ h
    exact ⟨t', ht, hst'.rest, hst'.length, hst'.entry⟩
  peak s hp hroom h := by
    obtain ⟨n, -, hn, hrefused⟩ := hm.full s _ h rfl
    have hn : n < s.stack.length - p + q := hn
    exact hrefused (hroom n (by omega))

theorem execInstr_setLocal (f : CallFrame) (slot : ℕ) (s : Vm F) :
    execInstr env f (.setLocal slot) s = match s.stack.getLast? with
      | none => .error .stackUnderflow
      | some v =>
        if f.base + slot < s.stack.length - 1 then
          .ok (.running, { s with stack := s.stack.dropLast.set (f.base + slot) v })
        else .error (.panicked "index out of bounds") := by
  change ((pop >>= writeLocal (f.base + slot)) >>= fun _ =>
    pure (Outcome.running : Outcome F)) s = _
  cases hv : s.stack.getLast? with
  | none => simp [bind, StateT.bind, pop_apply, hv, Except.bind]
  | some v =>
    simp only [bind, StateT.bind, pop_apply, hv, Except.bind, writeLocal_apply,
      List.length_dropLast]
    by_cases hlt : f.base + slot < s.stack.length - 1
    · simp [hlt]
      rfl
    · simp [hlt]

/-- `SetLocal` writes a local slot and follows its entry as far as the operands go. -/
theorem follows_setLocal (f : CallFrame) {slot : ℕ} (hslot : f.base + slot < low) :
    FollowsEntry env low 1 (-1) 0 (execInstr env f (.setLocal slot)) where
  height s o s' h := by
    rw [execInstr_setLocal] at h
    split at h
    · cases h
    · split at h <;> cases h
      refine ⟨by omega, ?_, rfl⟩
      simp only [List.length_set, List.length_dropLast]
      omega
  below s o s' i h hlow hi := by
    rw [execInstr_setLocal] at h
    split at h
    · cases h
    · split at h <;> cases h
      have hne : f.base + slot ≠ i := by omega
      simp [hne, hi]
  reads s t o s' hst h := by
    obtain ⟨hrest, hlen, hentry⟩ := hst
    have hagree : (observed env).Agree low (s.stack.length - 1) s t := ⟨hrest, hlen, hentry⟩
    rw [execInstr_setLocal] at h ⊢
    rw [agree_getLast? hagree (Nat.le_refl _), ← hlen]
    split at h
    · cases h
    next v hv =>
      split at h
      next hlt =>
        cases h
        rw [if_pos hlt]
        refine ⟨_, rfl, hrest, by simp [hlen], fun i hi => ?_⟩
        simp only [List.getElem?_set, List.length_dropLast, ← hlen, hlt, if_true,
          List.getElem?_dropLast, hentry i hi]
      · cases h
  peak s hlen hroom h := by
    rw [execInstr_setLocal] at h
    split at h
    · cases h
    · split at h <;> cases h

/-- **An instruction that stays in its frame follows its entry.** -/
theorem execInstr_follows (f : CallFrame) {op : Op} (hstays : op.Stays) (hsized : op.Sized env)
    (hslot : ∀ slot, op = .getLocal slot ∨ op = .setLocal slot → f.base + slot < low) :
    FollowsEntry env low (opRequires op) (opDepthEffect op).2 op.stackGrowth (execInstr env f op) := by
  by_cases hset : ∃ slot, op = .setLocal slot
  · obtain ⟨slot, rfl⟩ := hset
    exact follows_setLocal f (hslot slot (.inr rfl))
  · have hmoves : Moves env _ _ _ (execInstr env f op) :=
      moves_execInstr f hstays fun slot he => hset ⟨slot, he⟩
    rw [hsized.results_eq] at hmoves
    have hreach : op.reach f.base ≤ low := by
      cases op with
      | getLocal slot => exact hslot slot (.inl rfl)
      | _ => exact Nat.zero_le _
    have hnet := stackGrowth_sub_stackShrink op
    rw [opDepthEffect_eq] at hnet ⊢
    exact .of_moves (hmoves.mono hreach) rfl (by dsimp only at hnet; omega)

/-! ## Calls, suspensions and resets -/

/-- The frame that a call enters holds its arguments and its other local slots, and no operand.
The caller's part of the stack ends below the arguments. -/
theorem call_enters {f : CallFrame} {idx n : ℕ} {s s' : Vm F} {o : Outcome F}
    (h : execInstr env f (.call idx n) s = .ok (o, s')) : ∃ g : CallFrame,
      s'.frames = g :: s.frames ∧ s'.stack.length = g.base + env.chunkLocalCount g.chunkIdx ∧
      g.base + n = s.stack.length ∧ s'.stack.take s.stack.length = s.stack := by
  obtain ⟨-, hn, hlc, -, rfl⟩ := execCall_ok h
  refine ⟨_, rfl, ?_, Nat.sub_add_cancel hn, by simp⟩
  simp only [List.length_append, List.length_replicate]
  omega

/-- **A call and the return of its frame follow the entry of the call.** -/
theorem return_follows_call {f g g' : CallFrame} {idx n : ℕ} {s s' t t' : Vm F} {o o' : Outcome F}
    (h : execInstr env f (.call idx n) s = .ok (o, s')) (hg : s'.frames = g :: s.frames)
    (hbase : g'.base = g.base) (hframes : t.frames = g' :: s.frames)
    (hcaller : s.frames ≠ []) (hslots : g.base < t.stack.length)
    (hreturn : execInstr env g' .return t = .ok (o', t')) :
    t'.frames = s.frames ∧ (t'.stack.length : Int) = s.stack.length + (opDepthEffect (.call idx n)).2
      := by
  obtain ⟨g₀, hg₀, -, hsum, -⟩ := call_enters h
  obtain rfl : g₀ = g := by
    rw [hg₀] at hg
    exact (List.cons.inj hg).1
  obtain ⟨v, -, hd⟩ := execReturn_ok hreturn
  have htail : t.frames.tail = s.frames := by rw [hframes, List.tail_cons]
  rw [htail] at hd
  cases hd with
  | caller _ =>
    refine ⟨rfl, ?_⟩
    simp only [List.length_append, List.length_take, List.length_dropLast, List.length_singleton,
      opDepthEffect]
    omega
  | host hf v => exact absurd hf hcaller

/-- **A yield and the resume after it follow the entry of the yield.** -/
theorem resume_follows_yield {f : CallFrame} {shared : List UInt8} {input : Value F}
    {s s' t : Vm F} {o : Outcome F} (h : execInstr env f .yield s = .ok (o, s'))
    (hresume : resume env shared input s' = .ok ((), t)) :
    1 ≤ s.stack.length ∧ t.frames = s.frames ∧
      (t.stack.length : Int) = s.stack.length + (opDepthEffect .yield).2 := by
  obtain ⟨v, w, hv, rfl, rfl⟩ := execYield_ok h
  have hpos := ne_nil_of_getLast? hv
  have hr := resume_ok hresume
  obtain ⟨v', w', hstack⟩ := hr.stack
  refine ⟨hpos, hr.frames, ?_⟩
  rw [hstack]
  simp only [Bool.false_eq_true, if_false, List.length_append, List.length_singleton, opDepthEffect]
  split
  · simp only [List.length_dropLast]
    omega
  · simp only [List.length_set, List.length_dropLast]
    omega

/-- A reset leaves no operand above the local slots of its frame. -/
theorem reset_clears {f : CallFrame} {s s' : Vm F} {o : Outcome F}
    (h : execInstr env f .reset s = .ok (o, s')) :
    s'.stack.length ≤ f.base + env.chunkLocalCount f.chunkIdx := by
  obtain ⟨hlen, pos, -, -, hset⟩ := execReset_ok h
  have hstack := (moves_setIp (pos + 1) : Moves env 0 0 0 _).stack_eq hset
  rw [show s'.stack = _ from hstack.1]
  simp only [List.length_append, List.length_take, List.length_replicate]
  omega

/-! ## The verified modules -/

/-- **The handlers of a verified module follow the tables.** Every instruction that stays in its
frame follows its entry; a call does so with the return of the frame that it enters, and a yield
with the resume after it. A reset drops its operands. The two models agree on the net effect. -/
theorem handlers_follow_tables (env : Env F) {chunk : Chunk} {f : CallFrame} {ip : ℕ} {op : Op}
    (hverify : verify env.module = .ok ()) (hchunk : env.chunk? f.chunkIdx = some chunk)
    (hop : chunk.ops[ip]? = some op) (hsized : op.Sized env) :
    (op.stackGrowth : Int) - op.stackShrink = (opDepthEffect op).2 ∧
    (op.Stays → FollowsEntry env (f.base + chunk.localCount) (opRequires op) (opDepthEffect op).2
      op.stackGrowth (execInstr env f op)) ∧
    (∀ idx n s s' o, op = .call idx n → execInstr env f op s = .ok (o, s') → ∃ g : CallFrame,
      s'.frames = g :: s.frames ∧ s'.stack.length = g.base + env.chunkLocalCount g.chunkIdx ∧
      g.base + n = s.stack.length ∧ s'.stack.take s.stack.length = s.stack ∧
      ∀ g' t t' o', g'.base = g.base → t.frames = g' :: s.frames → s.frames ≠ [] →
        g.base < t.stack.length → execInstr env g' .return t = .ok (o', t') →
        t'.frames = s.frames ∧ (t'.stack.length : Int) = s.stack.length + (opDepthEffect op).2) ∧
    (∀ shared input s s' o t, op = .yield → execInstr env f op s = .ok (o, s') →
      resume env shared input s' = .ok ((), t) → 1 ≤ s.stack.length ∧ t.frames = s.frames ∧
      (t.stack.length : Int) = s.stack.length + (opDepthEffect op).2) ∧
    (∀ s s' o, op = .reset → execInstr env f op s = .ok (o, s') →
      s'.stack.length ≤ f.base + chunk.localCount) := by
  have hlocals : env.chunkLocalCount f.chunkIdx = chunk.localCount := by
    rw [Env.chunkLocalCount, hchunk, Option.elim_some]
  have haccepted := verify_chunkAccepted hverify (List.mem_of_getElem? hchunk)
  refine ⟨stackGrowth_sub_stackShrink op, fun hstays => ?_, ?_, ?_, ?_⟩
  · apply execInstr_follows f hstays hsized
    intro slot hslot
    have := haccepted.slot_lt hop hslot
    omega
  · rintro idx n s s' o rfl h
    obtain ⟨g, hg, hlen, hsum, htake⟩ := call_enters h
    exact ⟨g, hg, hlen, hsum, htake, fun g' t t' o' hbase hframes hcaller hslots hreturn =>
      return_follows_call h hg hbase hframes hcaller hslots hreturn⟩
  · rintro shared input s s' o t rfl h hresume
    exact resume_follows_yield h hresume
  · rintro s s' o rfl h
    exact hlocals ▸ reset_clears h

/-- In `callsEachTick` the constant of the function, the call of it with its return, the yield with
its resume, and a reset from an empty stack follow their entries. -/
theorem callsEachTick_follows : verify callsEachTick = .ok () ∧
    FollowsEntry (plainEnv callsEachTick) 0 0 1 1
      (execInstr (plainEnv callsEachTick) ⟨1, 1, 0⟩ (.pushImmediate 1)) ∧
    (∃ (s s' t' : Vm Unit) (o o' : Outcome Unit),
      execInstr (plainEnv callsEachTick) ⟨0, 2, 0⟩ (.call 1 0) s = .ok (o, s') ∧
      execInstr (plainEnv callsEachTick) ⟨1, 2, 0⟩ .return
        { s' with stack := [.int 1], frames := ⟨1, 2, 0⟩ :: s.frames } = .ok (o', t') ∧
      t'.frames = s.frames ∧ (t'.stack.length : Int) = s.stack.length + 1) ∧
    (∃ (s s' t : Vm Unit) (o : Outcome Unit),
      execInstr (plainEnv callsEachTick) ⟨0, 3, 0⟩ .yield s = .ok (o, s') ∧
      resume (plainEnv callsEachTick) [] .unit s' = .ok ((), t) ∧ 1 ≤ s.stack.length ∧
      (t.stack.length : Int) = s.stack.length + 0) ∧
    ∃ (s s' : Vm Unit) (o : Outcome Unit), s.stack = [] ∧
      execInstr (plainEnv callsEachTick) ⟨0, 5, 1⟩ .reset s = .ok (o, s') ∧ s'.stack.length ≤ 1 := by
  refine ⟨rfl, ?_, ?_, ?_, ?_⟩
  · exact (handlers_follow_tables (plainEnv callsEachTick) (f := ⟨1, 1, 0⟩) rfl rfl
      (show callsEachTick.chunks[1].ops[0]? = some (Op.pushImmediate 1) from rfl) trivial).2.1 trivial
  · have hcall : execInstr (plainEnv callsEachTick) ⟨0, 2, 0⟩ (.call 1 0)
        { freshVm with frames := [⟨0, 2, 0⟩] } = .ok (.running, _) := rfl
    obtain ⟨g, hg, -, -, -, hreturn⟩ := (handlers_follow_tables (plainEnv callsEachTick)
      (f := ⟨0, 2, 0⟩) rfl rfl (show callsEachTick.chunks[0].ops[1]? = some (Op.call 1 0) from rfl)
        trivial).2.2.1 _ _ _ _ _ rfl hcall
    obtain rfl := (List.cons.inj hg).1
    obtain ⟨hframes, hlen⟩ := hreturn ⟨1, 2, 0⟩ { freshVm with
      stack := [.int 1]
      frames := [⟨1, 2, 0⟩, ⟨0, 2, 0⟩] } _ .running rfl rfl (List.cons_ne_nil _ _) (by decide) rfl
    exact ⟨_, _, _, _, _, hcall, rfl, hframes, hlen⟩
  · have hyield : execInstr (plainEnv callsEachTick) ⟨0, 3, 0⟩ .yield
        { freshVm with stack := [.int 1], frames := [⟨0, 3, 0⟩], started := true } =
          .ok (.yielded (.int 1), _) := rfl
    obtain ⟨hpos, -, hlen⟩ := (handlers_follow_tables (plainEnv callsEachTick)
      (f := ⟨0, 3, 0⟩) rfl rfl (show callsEachTick.chunks[0].ops[2]? = some Op.yield from rfl)
        trivial).2.2.2.1 [] .unit _ _ _ _ rfl hyield rfl
    exact ⟨_, _, _, _, hyield, rfl, hpos, hlen⟩
  · have hreset : execInstr (plainEnv callsEachTick) ⟨0, 5, 1⟩ .reset
        { freshVm with frames := [⟨0, 5, 1⟩] } = .ok (.reset, _) := rfl
    exact ⟨_, _, _, rfl, hreset, (handlers_follow_tables (plainEnv callsEachTick)
      (f := ⟨0, 5, 1⟩) rfl rfl (show callsEachTick.chunks[0].ops[4]? = some Op.reset from rfl)
        trivial).2.2.2.2 _ _ _ rfl hreset⟩

/-- A stream that yields and leaves the resume value to its reset. -/
def ticking : Module :=
  plainModule [plainChunk [.stream, .pushImmediate 1, .yield, .reset] .stream 0 0]

/-- The height of the stack changes by the net effect of the entry. -/
def FollowsNet (env : Env F) (f : CallFrame) (op : Op) : Prop :=
  ∀ s s' o, execInstr env f op s = .ok (o, s') →
    (s'.stack.length : Int) = s.stack.length + (opDepthEffect op).2

/-- A module of words that are narrower than a byte. -/
def narrow : Module :=
  { plainModule [plainChunk [.pushImmediate 0, .pushImmediate 0, .getIndex (.flat .int), .return]
      .func 0 0] with wordBitsLog2 := 2 }

/-- **The handlers of a yield and of a reset do not follow their entries**, nor does an indexed
read whose elements occupy no bytes. -/
theorem entries_not_followed :
    (verify ticking = .ok () ∧ ¬FollowsNet (plainEnv ticking) ⟨0, 3, 0⟩ .yield ∧
      ¬FollowsNet (plainEnv ticking) ⟨0, 4, 0⟩ .reset) ∧
    verify narrow = .ok () ∧
      ¬FollowsNet (plainEnv narrow) ⟨0, 3, 0⟩ (.getIndex (.flat .int)) := by
  refine ⟨⟨rfl, fun h => ?_, fun h => ?_⟩, rfl, fun h => ?_⟩
  · exact absurd (h { freshVm with stack := [.int 1], frames := [⟨0, 3, 0⟩] } _ _ rfl) (by decide)
  · exact absurd (h { freshVm with stack := [.int 1], frames := [⟨0, 4, 0⟩] } _ _ rfl) (by decide)
  · exact absurd (h { freshVm with stack := [.flat .array ⟨0, 0, 1⟩, .int 0] } _ _ rfl) (by decide)

end Keleusma
