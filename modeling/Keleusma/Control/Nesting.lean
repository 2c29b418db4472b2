import Keleusma.Control.Blocks

/-!
# What pass 1 establishes

A chunk that passes the first pass is a tree of blocks, up to the operands of its `Else`
instructions: the pass asks only that an `Else` names some `EndIf`. `nestingPass_region` follows
the pass from a position to the next delimiter that the open blocks answer for; there the state
is the one the pass had at the position, since every block opened in between has been closed.
-/

namespace Keleusma

variable {m : Module} {chunk : Chunk} {ip : ℕ} {st fin : NestState} {op : Op}

/-- The operand of an `Else` is not constrained. -/
def AnyEnd (_ _ : ℕ) : Prop := True

theorem nestingPass_step (hop : chunk.ops[ip]? = some op)
    (h : nestingPass m chunk ip st (chunk.ops.drop ip) = .ok fin) :
    ∃ st', checkDelimiter chunk.ops st ip op = .ok st' ∧ checkOperands m chunk ip op = .ok () ∧
      nestingPass m chunk (ip + 1) st' (chunk.ops.drop (ip + 1)) = .ok fin := by
  rw [drop_of_getElem? hop, nestingPass] at h
  cases hd : checkDelimiter chunk.ops st ip op with
  | error e => rw [hd] at h; cases h
  | ok st' =>
    rw [hd] at h
    cases ho : checkOperands m chunk ip op with
    | error e =>
      simp only [bind, Except.bind, ho] at h
      cases h
    | ok u =>
      simp only [bind, Except.bind, ho] at h
      exact ⟨st', rfl, rfl, h⟩

/-- Pass 1 checks the operands of every instruction. -/
theorem nestingPass_operands (h : nestingPass m chunk ip st (chunk.ops.drop ip) = .ok fin)
    {j : ℕ} (hj : ip ≤ j) (hop : chunk.ops[j]? = some op) : checkOperands m chunk j op = .ok () := by
  induction hn : j - ip generalizing ip st with
  | zero =>
    obtain rfl : j = ip := by omega
    obtain ⟨_, _, ho, _⟩ := nestingPass_step hop h
    exact ho
  | succ n ih =>
    have hlt : j < chunk.ops.length := (List.getElem?_eq_some_iff.mp hop).1
    have hip : chunk.ops[ip]? = some chunk.ops[ip] := List.getElem?_eq_getElem (by omega)
    obtain ⟨_, _, _, hrest⟩ := nestingPass_step hip h
    exact ih hrest (by omega) (by omega)

/-! ## The delimiters -/

/-- Where a loop is open, the state knows its exit. -/
def LoopsKnown (ops : List Op) (st : NestState) : Prop :=
  st.loopDepth ≠ 0 → (enclosingLoopExit ops st.blockStack).isSome

/-- The exit of the innermost loop of the open blocks. -/
def NestState.exit (ops : List Op) (st : NestState) : Option ℕ :=
  enclosingLoopExit ops st.blockStack

theorem checkDelimiter_leaf {st' : NestState} (hd : op.isDelimiter = false)
    (h : checkDelimiter chunk.ops st ip op = .ok st') : st' = st := by
  cases op <;> first | exact (Except.ok.inj h).symm | cases hd

theorem checkBreak_ok {st' : NestState} {target : ℕ} {ops : List Op} (hk : LoopsKnown ops st)
    (h : checkBreak ops st ip op target = .ok st') : st' = st ∧ st.exit ops = some target := by
  unfold checkBreak at h
  split at h
  · cases h
  next hdepth =>
    split at h
    · cases h
    · obtain ⟨exit, hexit⟩ := Option.isSome_iff_exists.mp (hk hdepth)
      rw [hexit] at h
      dsimp only at h
      split at h
      · cases h
      next ht =>
        refine ⟨(Except.ok.inj h).symm, ?_⟩
        rw [NestState.exit, hexit, not_not.mp ht]

/-- The state inside an `If` that has just been opened. -/
def NestState.openIf (st : NestState) (ip target : ℕ) : NestState :=
  { st with blockStack := (.ifBlock, ip) :: st.blockStack
            ifStack := ⟨ip, target, false⟩ :: st.ifStack }

/-- The state after the `Else` of that `If`. -/
def NestState.openElse (st : NestState) (ip target : ℕ) : NestState :=
  { st with blockStack := (.ifBlock, ip) :: st.blockStack
            ifStack := ⟨ip, target, true⟩ :: st.ifStack }

/-- The state inside a loop that has just been opened. -/
def NestState.openLoop (st : NestState) (ip : ℕ) : NestState :=
  { st with blockStack := (.loopBlock, ip) :: st.blockStack
            loopDepth := st.loopDepth + 1 }

theorem checkDelimiter_ifOp {st' : NestState} {target : ℕ}
    (h : checkDelimiter chunk.ops st ip (.ifOp target) = .ok st') : st' = st.openIf ip target := by
  simp only [checkDelimiter] at h
  split at h
  · cases h
  · exact (Except.ok.inj h).symm

theorem checkDelimiter_loop {st' : NestState} {target : ℕ}
    (h : checkDelimiter chunk.ops st ip (.loop target) = .ok st') : st' = st.openLoop ip := by
  simp only [checkDelimiter] at h
  split at h
  · cases h
  · exact (Except.ok.inj h).symm

theorem checkElse_openIf {ops : List Op} {st' : NestState} {p t e target : ℕ}
    (h : checkElse ops (st.openIf p t) e target = .ok st') :
    t = e + 1 ∧ st' = st.openElse p t := by
  simp only [checkElse, NestState.openIf] at h
  split at h
  · cases h
  next ht =>
    split at h
    · cases h
    · exact ⟨not_not.mp ht, (Except.ok.inj h).symm⟩
    · cases h

theorem checkElse_openElse {ops : List Op} {st' : NestState} {p t e target : ℕ}
    (h : checkElse ops (st.openElse p t) e target = .ok st') : t = e + 1 := by
  simp only [checkElse, NestState.openElse] at h
  split at h
  · cases h
  next ht => exact not_not.mp ht

theorem checkEndIf_openIf {st' : NestState} {p t e : ℕ}
    (h : checkEndIf (st.openIf p t) e = .ok st') : t = e ∧ st' = st := by
  simp only [checkEndIf, NestState.openIf] at h
  split at h
  · cases h
  next ht => exact ⟨by simpa using ht, (Except.ok.inj h).symm⟩

theorem checkEndIf_openElse {st' : NestState} {p t e : ℕ}
    (h : checkEndIf (st.openElse p t) e = .ok st') : st' = st := by
  simp only [checkEndIf, NestState.openElse] at h
  exact (Except.ok.inj h).symm

theorem checkEndIf_openLoop {st' : NestState} {p e : ℕ}
    (h : checkEndIf (st.openLoop p) e = .ok st') : False := by
  simp only [checkEndIf, NestState.openLoop] at h
  split at h
  · cases h
  · split at h <;> cases h

theorem checkEndLoop_openLoop {ops : List Op} {st' : NestState} {p e target exit : ℕ}
    (hp : ops[p]? = some (.loop exit)) (h : checkEndLoop ops (st.openLoop p) e target = .ok st') :
    target = p + 1 ∧ exit = e + 1 ∧ st' = st := by
  simp only [checkEndLoop, NestState.openLoop, hp] at h
  split at h
  · cases h
  next ht =>
    split at h
    · cases h
    next hx => exact ⟨not_not.mp ht, not_not.mp hx, (Except.ok.inj h).symm⟩

theorem LoopsKnown.openIf {ops : List Op} {p t : ℕ} (hk : LoopsKnown ops st) :
    LoopsKnown ops (st.openIf p t) := hk

theorem LoopsKnown.openElse {ops : List Op} {p t : ℕ} (hk : LoopsKnown ops st) :
    LoopsKnown ops (st.openElse p t) := hk

theorem LoopsKnown.openLoop {ops : List Op} {p exit : ℕ} (hp : ops[p]? = some (.loop exit)) :
    LoopsKnown ops (st.openLoop p) := fun _ => by
  simp [NestState.openLoop, enclosingLoopExit, hp]

theorem exit_openLoop {ops : List Op} {p exit : ℕ} (hp : ops[p]? = some (.loop exit)) :
    (st.openLoop p).exit ops = some exit := by
  simp [NestState.exit, NestState.openLoop, enclosingLoopExit, hp]

/-! ## Regions -/

/-- The delimiters that the open blocks answer for. -/
def Op.closes : Op → Prop
  | .elseOp _ | .endIf | .endLoop _ => True
  | _ => False

/-- The pass has come to a position in a state, and stops there: at the end of the chunk, or at
a delimiter of a block that was open before. -/
def Stops (m : Module) (chunk : Chunk) (fin : NestState) (e : ℕ) (st : NestState) : Prop :=
  nestingPass m chunk e st (chunk.ops.drop e) = .ok fin ∧
    ∀ op, chunk.ops[e]? = some op → op.closes

/-- A pass that ends with no block open and stops inside a block has a delimiter before it. -/
theorem Stops.delimiter {e : ℕ} (h : Stops m chunk fin e st) (hfin : fin.blockStack = [])
    (hst : st.blockStack ≠ []) : ∃ op, chunk.ops[e]? = some op ∧ op.closes := by
  cases hop : chunk.ops[e]? with
  | some op => exact ⟨op, rfl, h.2 op hop⟩
  | none =>
    have hd : chunk.ops.drop e = [] := List.drop_eq_nil_of_le (List.getElem?_eq_none_iff.mp hop)
    have h1 := h.1
    rw [hd, nestingPass] at h1
    cases h1
    exact absurd hfin hst

/-- **From every position the pass runs through a region.** -/
theorem nestingPass_region (hfin : fin.blockStack = []) (n : ℕ) :
    ∀ (ip : ℕ) (st : NestState), chunk.ops.length - ip ≤ n → LoopsKnown chunk.ops st →
      nestingPass m chunk ip st (chunk.ops.drop ip) = .ok fin →
      ∃ e, Region AnyEnd chunk.ops (st.exit chunk.ops) ip e ∧ Stops m chunk fin e st := by
  induction n with
  | zero =>
    intro ip st hn _ h
    refine ⟨ip, .nil, h, fun op hop => ?_⟩
    have := (List.getElem?_eq_some_iff.mp hop).1
    omega
  | succ n ih =>
    intro ip st hn hk h
    cases hop : chunk.ops[ip]? with
    | none => exact ⟨ip, .nil, h, fun op h' => by rw [hop] at h'; cases h'⟩
    | some op =>
      obtain ⟨st', hd, -, hrest⟩ := nestingPass_step hop h
      have hlt := (List.getElem?_eq_some_iff.mp hop).1
      cases op with
      | ifOp target =>
        obtain rfl := checkDelimiter_ifOp hd
        obtain ⟨e₁, hreg₁, hstop₁⟩ := ih (ip + 1) _ (by omega) hk.openIf hrest
        have hle₁ := hreg₁.le
        obtain ⟨op₁, hop₁, hc₁⟩ := hstop₁.delimiter hfin nofun
        obtain ⟨st₁, hd₁, -, hrest₁⟩ := nestingPass_step hop₁ hstop₁.1
        cases op₁ with
        | endIf =>
          obtain ⟨rfl, rfl⟩ := checkEndIf_openIf hd₁
          obtain ⟨e, hreg, hstop⟩ := ih _ _ (by omega) hk hrest₁
          exact ⟨e, .ifThen hop hreg₁ hop₁ hreg, hstop⟩
        | elseOp t =>
          obtain ⟨rfl, rfl⟩ := checkElse_openIf hd₁
          obtain ⟨e₂, hreg₂, hstop₂⟩ := ih (e₁ + 1) _ (by omega) hk.openElse hrest₁
          have hle₂ := hreg₂.le
          obtain ⟨op₂, hop₂, hc₂⟩ := hstop₂.delimiter hfin nofun
          obtain ⟨st₂, hd₂, -, hrest₂⟩ := nestingPass_step hop₂ hstop₂.1
          cases op₂ with
          | endIf =>
            obtain rfl := checkEndIf_openElse (e := e₂) hd₂
            obtain ⟨e, hreg, hstop⟩ := ih (e₂ + 1) st₂ (by omega) hk hrest₂
            exact ⟨e, .ifElse hop hreg₁ hop₁ trivial hreg₂ hop₂ hreg, hstop⟩
          | elseOp t₂ =>
            have := checkElse_openElse hd₂
            omega
          | endLoop t₂ => cases hd₂
          | _ => exact hc₂.elim
        | endLoop t => cases hd₁
        | _ => exact hc₁.elim
      | loop target =>
        obtain rfl := checkDelimiter_loop hd
        obtain ⟨e₁, hreg₁, hstop₁⟩ := ih (ip + 1) _ (by omega) (.openLoop hop) hrest
        have hle₁ := hreg₁.le
        rw [exit_openLoop hop] at hreg₁
        obtain ⟨op₁, hop₁, hc₁⟩ := hstop₁.delimiter hfin nofun
        obtain ⟨st₁, hd₁, -, hrest₁⟩ := nestingPass_step hop₁ hstop₁.1
        cases op₁ with
        | endLoop t =>
          obtain ⟨rfl, rfl, rfl⟩ := checkEndLoop_openLoop hop hd₁
          obtain ⟨e, hreg, hstop⟩ := ih _ _ (by omega) hk hrest₁
          exact ⟨e, .loop hop hreg₁ hop₁ hreg, hstop⟩
        | elseOp t => cases hd₁
        | endIf => exact (checkEndIf_openLoop hd₁).elim
        | _ => exact hc₁.elim
      | «break» target =>
        obtain ⟨rfl, hx⟩ := checkBreak_ok hk hd
        obtain ⟨e, hreg, hstop⟩ := ih _ _ (by omega) hk hrest
        rw [hx] at hreg ⊢
        exact ⟨e, .break hop hreg, hstop⟩
      | breakIf target =>
        obtain ⟨rfl, hx⟩ := checkBreak_ok hk hd
        obtain ⟨e, hreg, hstop⟩ := ih _ _ (by omega) hk hrest
        rw [hx] at hreg ⊢
        exact ⟨e, .breakIf hop hreg, hstop⟩
      | elseOp target =>
        exact ⟨ip, .nil, h, fun op h' => by rw [hop] at h'; cases h'; trivial⟩
      | endIf => exact ⟨ip, .nil, h, fun op h' => by rw [hop] at h'; cases h'; trivial⟩
      | endLoop target =>
        exact ⟨ip, .nil, h, fun op h' => by rw [hop] at h'; cases h'; trivial⟩
      | _ =>
        obtain rfl := checkDelimiter_leaf rfl hd
        obtain ⟨e, hreg, hstop⟩ := ih _ _ (by omega) hk hrest
        exact ⟨e, .leaf hop rfl hreg, hstop⟩

/-! ## Chunks that pass -/

theorem checkNesting_pass (h : checkNesting m chunk = .ok ()) :
    ∃ fin, nestingPass m chunk 0 ⟨[], 0, []⟩ (chunk.ops.drop 0) = .ok fin ∧ fin.blockStack = [] := by
  unfold checkNesting at h
  cases hp : nestingPass m chunk 0 ⟨[], 0, []⟩ chunk.ops with
  | error e => rw [hp] at h; cases h
  | ok fin =>
    refine ⟨fin, hp, ?_⟩
    simp only [hp, bind, Except.bind] at h
    split at h
    · cases h
    next hnil => exact hnil

/-- A chunk that passes is a tree of blocks up to the operands of its `Else` instructions. -/
theorem checkNesting_region (h : checkNesting m chunk = .ok ()) :
    Region AnyEnd chunk.ops none 0 chunk.ops.length := by
  obtain ⟨fin, hpass, hfin⟩ := checkNesting_pass h
  obtain ⟨e, hreg, hstop⟩ := nestingPass_region hfin chunk.ops.length 0 ⟨[], 0, []⟩ (by omega)
    (fun h => absurd rfl h) hpass
  have he : chunk.ops.length ≤ e := by
    cases hop : chunk.ops[e]? with
    | none => exact List.getElem?_eq_none_iff.mp hop
    | some op =>
      obtain ⟨st', hd, -, -⟩ := nestingPass_step hop hstop.1
      have hc := hstop.2 op hop
      cases op with
      | elseOp t => cases hd
      | endIf => cases hd
      | endLoop t => cases hd
      | _ => exact hc.elim
  rwa [Nat.le_antisymm (hreg.le_length (Nat.zero_le _)) he] at hreg

theorem checkNesting_operands (h : checkNesting m chunk = .ok ()) {ip : ℕ} {op : Op}
    (hop : chunk.ops[ip]? = some op) : checkOperands m chunk ip op = .ok () := by
  obtain ⟨fin, hpass, -⟩ := checkNesting_pass h
  exact nestingPass_operands hpass (Nat.zero_le _) hop

end Keleusma
