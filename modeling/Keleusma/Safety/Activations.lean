import Keleusma.Control.Trails
import Keleusma.Safety.Monitor

/-!
# What the frames of a run have executed

The monitor `executedRecord` keeps, for each frame, the positions of the instructions that it has
executed since it was entered, or since it last executed `Reset` or another instruction that starts
the record anew. What a call executes is in the record of its own frame. The record of every frame
is a trail to the position where the frame stands (`executedRecord_trails`).
-/

namespace Keleusma

variable {F : Type} {env : Env F} {anew : Op → Bool}

/-- The record of a frame after an instruction of its own. -/
def extended (anew : Op → Bool) (ip : ℕ) (op : Op) (es : List ℕ) : List ℕ :=
  if anew op || op == .reset then [] else es ++ [ip]

/-- The records after an instruction, or after running off the end. -/
def executedAfter (anew : Op → Bool) (ip : ℕ) : Option Op → List (List ℕ) → List (List ℕ)
  | _, [] => []
  | some .return, _ :: logs | none, _ :: logs => logs
  | some (.call idx n), es :: logs => [] :: extended anew ip (.call idx n) es :: logs
  | some op, es :: logs => extended anew ip op es :: logs

/-- The positions each frame has executed. -/
def executedRecord (env : Env F) (anew : Op → Bool) : Monitor F (List ℕ) where
  enter _ := []
  exec vm logs :=
    match vm.frames with
    | [] => logs
    | f :: _ => executedAfter anew f.ip (nextOp env f) logs
  resume _ logs := logs

theorem executedRecord_exec {vm : Vm F} {f : CallFrame} {rest : List CallFrame}
    (hf : vm.frames = f :: rest) {op : Option Op} (hop : (env.ops f.chunkIdx)[f.ip]? = op)
    (logs : List (List ℕ)) :
    (executedRecord env anew).exec vm logs = executedAfter anew f.ip op logs := by
  rw [executedRecord]
  dsimp only
  rw [hf]
  dsimp only
  rw [nextOp, hop]

theorem executedAfter_stays {op : Op} (h : op.Stays) (ip : ℕ) (es : List ℕ)
    (logs : List (List ℕ)) :
    executedAfter anew ip (some op) (es :: logs) = extended anew ip op es :: logs := by
  cases op <;> first | rfl | exact h.elim

theorem extended_suffix (ip : ℕ) (op : Op) (es : List ℕ) : extended anew ip op es <:+ es ++ [ip] := by
  unfold extended
  split
  · exact List.nil_suffix
  · exact List.suffix_rfl

/-- Where a record may begin: at the entry of the chunk, behind an instruction that starts it anew,
or where `Reset` goes on. -/
def Begins (ops : List Op) (anew : Op → Bool) (start : ℕ) : Prop :=
  start = 0 ∨ (∃ p op, ops[p]? = some op ∧ anew op = true ∧ start ∈ op.next p) ∨
    ∃ s, ops.findIdx? (· == .stream) = some s ∧ start = s + 1

/-- The record of a frame is a trail to where the frame stands, of instructions that do not start
it anew. -/
structure RecordOk (env : Env F) (anew : Op → Bool) (f : CallFrame) (es : List ℕ) : Prop where
  trail : ∃ start, Begins (env.ops f.chunkIdx) anew start ∧
    Trail (env.ops f.chunkIdx) start (es ++ [f.ip])
  goesOn : ∀ p ∈ es, ∃ op, (env.ops f.chunkIdx)[p]? = some op ∧ anew op = false ∧ op ≠ .reset

theorem Trail.single {ops : List Op} (p : ℕ) : Trail ops p [p] :=
  ⟨List.isChain_singleton p, by rintro _ ⟨⟩; rfl⟩

/-- A trail goes on where its last instruction goes. -/
theorem Trail.snoc {ops : List Op} {start p q : ℕ} {es : List ℕ} {op : Op}
    (h : Trail ops start (es ++ [p])) (hop : ops[p]? = some op) (hq : q ∈ op.next p) :
    Trail ops start (es ++ [p] ++ [q]) where
  chain := by
    refine List.isChain_append.mpr ⟨h.chain, List.isChain_singleton q, ?_⟩
    intro a ha b hb
    rw [List.getLast?_concat, Option.mem_some_iff] at ha
    obtain rfl := ha
    cases hb
    exact ⟨op, hop, hq⟩
  start a ha := by
    refine h.start a ?_
    rw [List.append_assoc, List.head?_append] at ha
    rwa [List.head?_append]

theorem extended_reset (ip : ℕ) (es : List ℕ) : extended anew ip .reset es = [] :=
  if_pos (Bool.or_true _)

/-- A frame that goes on at a position its instruction names. -/
theorem RecordOk.advance {f : CallFrame} {es : List ℕ} {op : Op} {ip : ℕ}
    (h : RecordOk env anew f es) (hop : (env.ops f.chunkIdx)[f.ip]? = some op)
    (hip : ip ∈ op.next f.ip) : RecordOk env anew { f with ip } (extended anew f.ip op es) := by
  unfold extended
  split
  next hanew =>
    have hstart : anew op = true := by
      rcases (Bool.or_eq_true _ _).mp hanew with h | h
      · exact h
      · rw [eq_of_beq h] at hip
        cases hip
    exact ⟨⟨ip, .inr (.inl ⟨f.ip, op, hop, hstart, hip⟩), .single ip⟩, List.forall_mem_nil _⟩
  next hanew =>
    obtain ⟨start, hbegins, htrail⟩ := h.trail
    refine ⟨⟨start, hbegins, htrail.snoc hop hip⟩, fun p hp => ?_⟩
    rcases List.mem_append.mp hp with hp | hp
    · exact h.goesOn p hp
    · obtain rfl := List.mem_singleton.mp hp
      rw [Bool.or_eq_true, not_or, Bool.not_eq_true] at hanew
      exact ⟨op, hop, hanew.1, by rintro rfl; exact hanew.2 rfl⟩

/-- **The record of every frame is a trail to where the frame stands.** -/
theorem executedRecord_trails {ok : Vm F → Prop} {c : ℕ} {cfg : Config F} {logs : List (List ℕ)}
    (h : (executedRecord env anew).Reaches env ok c cfg logs) :
    List.Forall₂ (RecordOk env anew) cfg.vm.frames logs := by
  have hnew (idx base : ℕ) : RecordOk env anew ⟨idx, 0, base⟩ [] :=
    ⟨⟨0, .inl rfl, .single 0⟩, List.forall_mem_nil _⟩
  induction h with
  | start h =>
    obtain ⟨vm, shared, args, hidle, hcall, -⟩ := h
    obtain ⟨-, -, -, -, hframes, -, -⟩ := callFunction_ok hidle hcall
    rw [hframes]
    exact .cons (hnew _ _) .nil
  | resume _ shared input hst hres ih => rwa [(resume_ok hres).frames]
  | @exec vm vm' o logs _ _ hs ih =>
    cases step_moved hs with
    | @advance f rest op ip' _ ha hstays =>
      rw [ha.frames] at ih
      rw [ha.frames', executedRecord_exec ha.frames ha.op_at]
      cases ih with
      | cons hf hrest =>
        rw [executedAfter_stays hstays]
        exact .cons (hf.advance ha.op_at ha.next) hrest
    | @reset f rest pos _ hf hop hlen hpos hf' =>
      rw [hf] at ih
      rw [hf', executedRecord_exec hf hop]
      cases ih with
      | @cons _ es _ logs _ hrest =>
        rw [show executedAfter anew f.ip (some .reset) (es :: logs) =
          extended anew f.ip .reset es :: logs from rfl, extended_reset]
        exact .cons ⟨⟨pos + 1, .inr (.inr ⟨pos, hpos, rfl⟩), .single _⟩,
          List.forall_mem_nil _⟩ hrest
    | @call f rest idx n _ hf hop hidx hn hlc hf' =>
      rw [hf] at ih
      rw [hf', executedRecord_exec hf hop]
      cases ih with
      | cons hrec hrest =>
        exact .cons (hnew _ _) (.cons (hrec.advance hop (List.mem_singleton_self _)) hrest)
    | @returnTo f rest v _ hf hop hv hne hf' =>
      rw [hf] at ih
      rw [hf', executedRecord_exec hf hop]
      cases ih with
      | cons _ hrest => exact hrest
    | @runOffTo f rest _ hf hop hne hf' =>
      rw [hf] at ih
      rw [hf', executedRecord_exec hf hop]
      cases ih with
      | cons _ hrest => exact hrest
    | @finish f v _ hf hop hf' =>
      rw [hf] at ih
      rw [hf']
      cases ih with
      | cons _ hrest =>
        cases hrest
        rcases hop with hop | hop <;> (rw [executedRecord_exec hf hop]; exact .nil)
    | @yield f rest v w _ hf hop hv hf' =>
      rw [hf] at ih
      rw [hf', executedRecord_exec hf hop]
      cases ih with
      | cons hrec hrest => exact .cons (hrec.advance hop (List.mem_singleton_self _)) hrest

end Keleusma
