import Re2cCodegen.TagActions

/-! Transitions: the statements `gen_goto` emits for one transition, and around them the
`YYFILL` check, the fallback transition and the jump back after `YYFILL` that an
end-of-input rule adds, in each of the three code models. -/

namespace Re2cCodegen.Transitions

open Re2cCodegen.Options Re2cCodegen.Dfa Re2cCodegen.Output Re2cCodegen.TagActions

/-- A state with one span, to a RULE or ACCEPT state. -/
def endstate (dfa : Adfa) (s : StateId) : Bool :=
  match (dfa.go s).span with
  | [sp] => match dfa.action sp.dest with
    | .rule _ | .accept _ => true
    | _ => false
  | _ => false

/-- `yych` is not read again in `s`: a MOVE state, or one span to a state that is not one. -/
def omitPeek (dfa : Adfa) (s : StateId) : Bool :=
  dfa.action s == .move || match (dfa.go s).span with
    | [sp] => dfa.action sp.dest != .move
    | _ => false

def needYychArg (dfa : Adfa) (s : StateId) : Bool :=
  omitPeek dfa s && 1 < (dfa.go s).span.length && !endstate dfa s

def genContinueYyloop (next : Expr) : List Code := [.cont next]

/-- `s->fill_label->index`; the states that `YYFILL` returns to have a fill label. -/
def fillLabelIndex (dfa : Adfa) (s : StateId) : Nat := (dfa.state s).fillLabel.getD 0

def falltags (dfa : Adfa) (fromState : StateId) : Tcid :=
  if (dfa.go fromState).tags ≠ tcid0 then tcid0 else (dfa.fallback fromState).2

/-- `gen_fill_falllback` leaves the fallback out when control falls through to `jump`,
which has the same destination and tags and no `YYSKIP`; in rec/func mode with `YYFILL`
both arms of the IF must end in a tail call, so it is kept. -/
def fallbackElided (opts : Opts) (dfa : Adfa) (fromState : StateId) : Option CodeJump → Bool
  | some j => (dfa.fallback fromState).1 == j.dest && falltags dfa fromState == j.tags &&
      !j.skip && !(opts.codeModel == .recFunc && opts.fillEnable)
  | none => false

def genFillFalllback (opts : Opts) (dfa : Adfa) (fromState : StateId) (jump : Option CodeJump) :
    List Code :=
  let fallback := (dfa.fallback fromState).1
  if fallbackElided opts dfa fromState jump then []
  else genSettags opts dfa (falltags dfa fromState) ++
    match opts.codeModel with
    | .gotoLabel => [.goto (.num (dfa.label fallback).index)]
    | .loopSwitch => genContinueYyloop (.num (dfa.label fallback).index)
    | .recFunc => [.tailcall (.state (dfa.label fallback).index) false]

/-- One IF/ELSE in rec/func mode; elsewhere an IF followed by the second list, which may
be elided. -/
def genIf (opts : Opts) (cond : Cond) (trans1 trans2 : List Code) : List Code :=
  if opts.codeModel = .recFunc then [.ifte cond trans1 trans2] else .ifte cond trans1 [] :: trans2

/-- The list `resume` of `gen_goto_after_fill`: back to the fill state of `fromState`. -/
def genResume (opts : Opts) (dfa : Adfa) (fromState : StateId) : List Code :=
  let s := (dfa.state fromState).fillState
  match opts.codeModel with
  | .gotoLabel =>
    if opts.storableState || opts.fillEof.isSome then [.goto (.fill (fillLabelIndex dfa s))] else []
  | .loopSwitch => genContinueYyloop (.num (dfa.label s).index)
  | .recFunc => [.tailcall (.state (dfa.label s).index) false]

def genGotoAfterFill (opts : Opts) (dfa : Adfa) (fromState : StateId) (jump : Option CodeJump) :
    List Code :=
  if opts.storableState && opts.fillEof.isSome then
    -- `YYFILL` may fail again on re-entry: follow the fallback transition then
    genIf opts (.lessThan 1) (genFillFalllback opts dfa fromState jump)
      (genResume opts dfa fromState)
  else genResume opts dfa fromState

/-- The list `fill` of `gen_fill`: the `YYFILL` call and, with an end-of-input rule, what
follows from its result. -/
def fillStmts (opts : Opts) (dfa : Adfa) (fromState : StateId) (jump : Option CodeJump) :
    List Code :=
  let eofRule := opts.fillEof.isSome
  if opts.fillEnable then
    (if opts.storableState then
      [.stateSet (.num (fillLabelIndex dfa (dfa.state fromState).fillState))] else []) ++
    if eofRule && !opts.storableState then
      -- on success go to the fill label and rematch, else take the fallback transition
      (if opts.varFill then [.fill] else []) ++
        genIf opts (if opts.varFill then .fillVar else .fill)
          (genGotoAfterFill opts dfa fromState jump) (genFillFalllback opts dfa fromState jump)
    else [.fill]
  else if eofRule && !opts.storableState then genFillFalllback opts dfa fromState jump
  else []

def genFill (opts : Opts) (dfa : Adfa) (tail : List Code) (fromState : StateId)
    (jump : Option CodeJump) : List Code :=
  let need := if opts.fillEof.isSome then 1 else (dfa.state fromState).fill
  let fill := fillStmts opts dfa fromState jump
  if opts.fillCheck && !fill.isEmpty then genIf opts (.lessThan need) fill tail else fill ++ tail

/-- Whether `gen_goto` emits the transfer of `jump` to its destination. -/
def emitsTransfer (dfa : Adfa) (jump : CodeJump) : Bool := !jump.elide && (dfa.label jump.dest).used

/-- The list `transition` of `gen_goto`: the tags, `YYSKIP`, and the transfer. -/
def genTransition (opts : Opts) (dfa : Adfa) (jump : CodeJump) : List Code :=
  genSettags opts dfa jump.tags ++ (if jump.skip then [.skip] else []) ++
    if emitsTransfer dfa jump then
      match opts.codeModel with
      | .gotoLabel => [.goto (.num (dfa.label jump.dest).index)]
      | .loopSwitch => genContinueYyloop (.num (dfa.label jump.dest).index)
      | .recFunc => [.tailcall (.state (dfa.label jump.dest).index) (needYychArg dfa jump.dest)]
    else []

/-- `from` is null only for the transitions of an ACCEPT action, which never check `YYFILL`. -/
def genGoto (opts : Opts) (dfa : Adfa) (fromState : Option StateId) (jump : CodeJump) : List Code :=
  match fromState, jump.eof with
  | some s, true => genFill opts dfa (genTransition opts dfa jump) s (some jump)
  | _, _ => genTransition opts dfa jump

/-! What the statements do. -/

def stateExit (model : CodeModel) (dfa : Adfa) (s : StateId) : Exit :=
  match model with
  | .gotoLabel => .goto (.num (dfa.label s).index)
  | .loopSwitch => .cont (some (dfa.label s).index)
  | .recFunc => .call (.state (dfa.label s).index)

/-- Where control resumes after a successful `YYFILL` in `s`: the fill label of its fill
state in goto/label mode, the fill state itself otherwise. -/
def fillReentry (opts : Opts) (dfa : Adfa) (s : StateId) : Exit :=
  let t := (dfa.state s).fillState
  match opts.codeModel with
  | .gotoLabel => .goto (.fill (fillLabelIndex dfa t))
  | model => stateExit model dfa t

/-- The memory after the tags of transition `j` and its `YYSKIP`. -/
def jumpMem (opts : Opts) (dfa : Adfa) (env : Env) (j : CodeJump) (m : Mem) : Mem :=
  let m' := runTags opts dfa env j.tags m
  if j.skip then m'.shift .cursor 1 else m'

def Reaches (opts : Opts) (dfa : Adfa) (j : CodeJump) (t : StateId) (m : Mem) (o : Outcome) :
    Prop :=
  o = .jump m (stateExit opts.codeModel dfa t) ∨
    (o = .next m ∧ t = j.dest ∧ emitsTransfer dfa j = false)

section

variable (opts : Opts) (dfa : Adfa) (env : Env) (m : Mem)

theorem ne_nil_of_exec_jump {cs : List Code} {m' : Mem} {e : Exit}
    (h : exec env cs m = .jump m' e) : cs ≠ [] := by
  rintro rfl
  cases h

theorem exec_genIf (c : Cond) (t e : List Code) :
    exec env (genIf opts c t e) m =
      if (c.eval env m).1 then
        (exec env t (c.eval env m).2).bind fun m' =>
          if opts.codeModel = .recFunc then .next m' else exec env e m'
      else exec env e (c.eval env m).2 := by
  have h0 : exec env ([] : List Code) = .next := rfl
  unfold genIf
  rcases hc : c.eval env m with ⟨_ | _, m'⟩ <;> split <;> simp [exec_cons, step, hc, h0, *]

theorem exec_transfer (model : CodeModel) (s : StateId) (yych : Bool) :
    exec env (match model with
      | .gotoLabel => [.goto (.num (dfa.label s).index)]
      | .loopSwitch => genContinueYyloop (.num (dfa.label s).index)
      | .recFunc => [.tailcall (.state (dfa.label s).index) yych]) m =
      .jump m (stateExit model dfa s) := by
  cases model <;> rfl

theorem exec_genFillFalllback (s : StateId) (jump : Option CodeJump)
    (hel : fallbackElided opts dfa s jump = false) :
    exec env (genFillFalllback opts dfa s jump) m =
      .jump (runTags opts dfa env (falltags dfa s) m)
        (stateExit opts.codeModel dfa (dfa.fallback s).1) := by
  rw [genFillFalllback, if_neg (by simp [hel]), exec_append, exec_genSettags_next,
    Outcome.bind_next]
  exact exec_transfer dfa env _ _ _ false

theorem fallbackElided_some {s : StateId} {jump : Option CodeJump}
    (hel : fallbackElided opts dfa s jump = true) :
    ∃ j, jump = some j ∧ (dfa.fallback s).1 = j.dest ∧ falltags dfa s = j.tags ∧
      j.skip = false ∧ ¬(opts.codeModel = .recFunc ∧ opts.fillEnable = true) := by
  cases jump with
  | none => cases hel
  | some j =>
    simp only [fallbackElided, Bool.and_eq_true, beq_iff_eq, Bool.not_eq_true'] at hel
    exact ⟨j, rfl, hel.1.1.1, hel.1.1.2, hel.1.2, by simpa using hel.2⟩

theorem exec_genResume (s : StateId) (h : (opts.storableState || opts.fillEof.isSome) = true) :
    exec env (genResume opts dfa s) m = .jump m (fillReentry opts dfa s) := by
  unfold genResume fillReentry
  cases opts.codeModel <;> simp [h, exec_cons, step, stateExit, genContinueYyloop, Expr.eval]

theorem exec_genTransition (j : CodeJump) :
    exec env (genTransition opts dfa j) m =
      if emitsTransfer dfa j then .jump (jumpMem opts dfa env j m) (stateExit opts.codeModel dfa j.dest)
      else .next (jumpMem opts dfa env j m) := by
  rw [genTransition, exec_append, exec_append, exec_genSettags_next, Outcome.bind_next]
  have hskip : exec env (if j.skip then [.skip] else []) (runTags opts dfa env j.tags m) =
      .next (jumpMem opts dfa env j m) := by
    cases hs : j.skip <;> simp [jumpMem, step, hs]
  rw [hskip, Outcome.bind_next]
  split
  · exact exec_transfer dfa env _ _ _ _
  · rfl

theorem ifte_not_mem_genTransition (j : CodeJump) (c : Cond) (t e : List Code) :
    Code.ifte c t e ∉ genTransition opts dfa j := by
  intro h
  simp only [genTransition, List.mem_append] at h
  rcases h with (h | h) | h
  · simpa [Code.straight] using genSettags_straight opts dfa _ _ h
  · split at h <;> simp_all
  · split at h
    · split at h <;> simp_all [genContinueYyloop]
    · simp at h

theorem reaches_genTransition (j : CodeJump) :
    Reaches opts dfa j j.dest (jumpMem opts dfa env j m) (exec env (genTransition opts dfa j) m) := by
  rw [exec_genTransition]
  by_cases h : emitsTransfer dfa j
  · exact .inl (if_pos h)
  · exact .inr ⟨if_neg h, rfl, by simpa using h⟩

theorem reaches_of_fallbackElided {s : StateId} {j : CodeJump}
    (hel : fallbackElided opts dfa s (some j) = true) :
    Reaches opts dfa j (dfa.fallback s).1 (runTags opts dfa env (falltags dfa s) m)
      (exec env (genTransition opts dfa j) m) := by
  obtain ⟨_, ⟨⟩, hF, ht, hs, -⟩ := fallbackElided_some opts dfa hel
  have := reaches_genTransition opts dfa env m j
  rwa [jumpMem, hs, ← ht, ← hF, if_neg Bool.false_ne_true] at this

/-! `gen_fill` around a transition `tail`. -/

variable (tail : List Code) (s : StateId) (jump : Option CodeJump)

theorem exec_genFill_of_not_lt (hcheck : opts.fillCheck = true)
    (hlt : env.lessThan (if opts.fillEof.isSome then 1 else (dfa.state s).fill) = false) :
    exec env (genFill opts dfa tail s jump) m = exec env tail m := by
  simp only [genFill]
  by_cases hc : (opts.fillCheck && !(fillStmts opts dfa s jump).isEmpty) = true
  · simp [hc, exec_genIf, Cond.eval, hlt]
  · rw [if_neg hc, show fillStmts opts dfa s jump = [] by simpa [hcheck] using hc, List.nil_append]

theorem exec_genFill_of_jump (hcheck : opts.fillCheck = true) {m' : Mem} {e : Exit}
    (hlt : env.lessThan (if opts.fillEof.isSome then 1 else (dfa.state s).fill) = true)
    (hj : exec env (fillStmts opts dfa s jump) m = .jump m' e) :
    exec env (genFill opts dfa tail s jump) m = .jump m' e := by
  have hne := ne_nil_of_exec_jump env m hj
  simp [genFill, hcheck, hne, exec_genIf, Cond.eval, hlt, hj]

theorem genFill_of_nil (h : fillStmts opts dfa s jump = []) : genFill opts dfa tail s jump = tail := by
  simp [genFill, h]

theorem exec_genFill_of_next (hcheck : opts.fillCheck = true) {m' : Mem}
    (hrec : opts.codeModel ≠ .recFunc)
    (hlt : env.lessThan (if opts.fillEof.isSome then 1 else (dfa.state s).fill) = true)
    (hn : exec env (fillStmts opts dfa s jump) m = .next m') :
    exec env (genFill opts dfa tail s jump) m = exec env tail m' := by
  simp only [genFill]
  by_cases hc : (opts.fillCheck && !(fillStmts opts dfa s jump).isEmpty) = true
  · simp [hc, exec_genIf, Cond.eval, hlt, hn, hrec]
  · have h0 : fillStmts opts dfa s jump = [] := by simpa [hcheck] using hc
    rw [h0] at hn
    cases hn
    rw [if_neg hc, h0, List.nil_append]

theorem genFill_of_not_rec (hm : opts.codeModel ≠ .recFunc) :
    genFill opts dfa tail s jump =
      (if opts.fillCheck && !(fillStmts opts dfa s jump).isEmpty then
        [.ifte (.lessThan (if opts.fillEof.isSome then 1 else (dfa.state s).fill))
          (fillStmts opts dfa s jump) []]
      else fillStmts opts dfa s jump) ++ tail := by
  simp only [genFill, genIf, hm, if_false]
  split <;> rfl

theorem genGoto_isJump (hm : opts.codeModel ≠ .recFunc) (fromState : Option StateId)
    (j : CodeJump) (h : emitsTransfer dfa j = true) :
    (exec env (genGoto opts dfa fromState j) m).isJump := by
  have ht : ∀ m, (exec env (genTransition opts dfa j) m).isJump := fun m => by
    rw [exec_genTransition, if_pos h]
    rfl
  unfold genGoto
  split
  · rw [genFill_of_not_rec opts dfa _ _ _ hm, exec_append]
    exact Outcome.isJump_bind _ ht
  · exact ht m

theorem exec_fillStmts_eof (heof : opts.fillEof.isSome = true) (hstor : opts.storableState = false)
    (hfill : opts.fillEnable = true) :
    exec env (fillStmts opts dfa s jump) m =
      if env.fillOk then .jump (m.afterFill true) (fillReentry opts dfa s)
      else exec env (genFillFalllback opts dfa s jump) (m.afterFill false) := by
  have hR : ∀ m', exec env (genGotoAfterFill opts dfa s jump) m' = .jump m' (fillReentry opts dfa s) := by
    intro m'
    rw [genGotoAfterFill, if_neg (by simp [hstor])]
    exact exec_genResume opts dfa env m' s (by simp [heof])
  cases hv : opts.varFill <;> cases hok : env.fillOk <;>
    simp [fillStmts, hfill, hstor, heof, hv, hok, exec_genIf, exec_append, Cond.eval, step, hR,
      Mem.afterFill, Mem.get, Mem.setPos]

theorem genGoto_eof_check (s : StateId) (j : CodeJump) (heof : opts.fillEof.isSome = true)
    (hcheck : opts.fillCheck = true) (hstor : opts.storableState = false) (hj : j.eof = true) :
    (env.lessThan 1 = false → Reaches opts dfa j j.dest (jumpMem opts dfa env j m)
      (exec env (genGoto opts dfa (some s) j) m)) ∧
    (env.lessThan 1 = true → opts.fillEnable = true → env.fillOk = true →
      exec env (genGoto opts dfa (some s) j) m = .jump (m.afterFill true) (fillReentry opts dfa s)) ∧
    (env.lessThan 1 = true → (opts.fillEnable = true → env.fillOk = false) →
      Reaches opts dfa j (dfa.fallback s).1
        (runTags opts dfa env (falltags dfa s) (if opts.fillEnable then m.afterFill false else m))
        (exec env (genGoto opts dfa (some s) j) m)) := by
  have hg : genGoto opts dfa (some s) j = genFill opts dfa (genTransition opts dfa j) s (some j) := by
    simp [genGoto, hj]
  have hneed : (if opts.fillEof.isSome then 1 else (dfa.state s).fill) = 1 := if_pos heof
  rw [hg]
  refine ⟨fun hlt => ?_, fun hlt hfe hok => ?_, fun hlt hfail => ?_⟩
  · rw [exec_genFill_of_not_lt opts dfa env m _ s _ hcheck (by rwa [hneed])]
    exact reaches_genTransition opts dfa env m j
  · refine exec_genFill_of_jump opts dfa env m _ s _ hcheck (by rwa [hneed]) ?_
    rw [exec_fillStmts_eof opts dfa env m s _ heof hstor hfe, if_pos hok]
  cases hel : fallbackElided opts dfa s (some j)
  case false =>
    refine .inl (exec_genFill_of_jump opts dfa env m _ s _ hcheck (by rwa [hneed]) ?_)
    cases hfe : opts.fillEnable
    · simp [fillStmts, hfe, heof, hstor, exec_genFillFalllback opts dfa env _ s _ hel]
    · rw [exec_fillStmts_eof opts dfa env m s _ heof hstor hfe, if_neg (by simp [hfail hfe]),
        exec_genFillFalllback opts dfa env _ s _ hel, if_pos rfl]
  case true =>
    have hfb : genFillFalllback opts dfa s (some j) = [] := if_pos hel
    obtain ⟨_, ⟨⟩, -, -, -, hnr⟩ := fallbackElided_some opts dfa hel
    cases hfe : opts.fillEnable
    · rw [genFill_of_nil opts dfa _ s _ (by simp [fillStmts, hfe, heof, hstor, hfb])]
      simpa using reaches_of_fallbackElided opts dfa env m hel
    · rw [exec_genFill_of_next opts dfa env m _ s _ hcheck (fun h => hnr ⟨h, hfe⟩) (by rwa [hneed])
        (by rw [exec_fillStmts_eof opts dfa env m s _ heof hstor hfe, if_neg (by simp [hfail hfe]), hfb];
            rfl)]
      simpa using reaches_of_fallbackElided opts dfa env _ hel

end

/-! Where the statements can transfer control to, in loop/switch and rec/func mode. -/

def EntersUsed (opts : Opts) (dfa : Adfa) (e : Exit) : Prop :=
  ∃ t ∈ dfa.states, (dfa.label t).used = true ∧ e = stateExit opts.codeModel dfa t

section

variable (opts : Opts) (dfa : Adfa) (env : Env)

theorem exits_genIf {P : Exit → Prop} (c : Cond) {t f : List Code} (ht : AllExits env P t)
    (hf : AllExits env P f) : AllExits env P (genIf opts c t f) := by
  unfold genIf
  split
  · exact .ifte ht hf
  · exact (AllExits.ifte ht .nil).append hf

theorem exits_genTransition (j : CodeJump) (hj : j.dest ∈ dfa.states) :
    AllExits env (EntersUsed opts dfa) (genTransition opts dfa j) := by
  intro m m' e he
  rw [exec_genTransition] at he
  split at he
  · rename_i h
    simp only [Outcome.jump.injEq] at he
    exact ⟨j.dest, hj, by simp_all [emitsTransfer], he.2.symm⟩
  · cases he

variable (s : StateId)

theorem exits_genFillFalllback (jump : Option CodeJump)
    (hF : (dfa.fallback s).1 ∈ dfa.states ∧ (dfa.label (dfa.fallback s).1).used = true) :
    AllExits env (EntersUsed opts dfa) (genFillFalllback opts dfa s jump) := by
  cases hel : fallbackElided opts dfa s jump
  · intro m m' e he
    rw [exec_genFillFalllback opts dfa env m s jump hel, Outcome.jump.injEq] at he
    exact ⟨_, hF.1, hF.2, he.2.symm⟩
  · rw [genFillFalllback, if_pos hel]
    exact .nil

theorem exits_genResume (hm : opts.codeModel ≠ .gotoLabel)
    (hfs : (dfa.state s).fillState ∈ dfa.states ∧ (dfa.label (dfa.state s).fillState).used = true) :
    AllExits env (EntersUsed opts dfa) (genResume opts dfa s) := by
  unfold genResume genContinueYyloop
  split
  · contradiction
  all_goals
    rename_i hmodel
    refine .single fun m m' e he => ⟨_, hfs.1, hfs.2, ?_⟩
    simp only [step, Outcome.jump.injEq, Expr.eval] at he
    rw [← he.2, hmodel]
    rfl

variable (hm : opts.codeModel ≠ .gotoLabel)
  (hF : (dfa.fallback s).1 ∈ dfa.states ∧ (dfa.label (dfa.fallback s).1).used = true)
  (hfs : (dfa.state s).fillState ∈ dfa.states ∧ (dfa.label (dfa.state s).fillState).used = true)
include hm hF hfs

theorem exits_genGotoAfterFill (jump : Option CodeJump) :
    AllExits env (EntersUsed opts dfa) (genGotoAfterFill opts dfa s jump) := by
  have hr := exits_genResume opts dfa env s hm hfs
  unfold genGotoAfterFill
  split
  · exact exits_genIf opts env _ (exits_genFillFalllback opts dfa env s jump hF) hr
  · exact hr

theorem exits_fillStmts (jump : Option CodeJump) :
    AllExits env (EntersUsed opts dfa) (fillStmts opts dfa s jump) := by
  have hfb := exits_genFillFalllback opts dfa env s jump hF
  have hst : ∀ {cs : List Code}, (∀ c ∈ cs, c.straight = true) → AllExits env (EntersUsed opts dfa) cs :=
    AllExits.of_straight
  dsimp only [fillStmts]
  split
  · refine (hst (by split <;> simp [Code.straight])).append ?_
    split
    · exact (hst (by split <;> simp [Code.straight])).append
        (exits_genIf opts env _ (exits_genGotoAfterFill opts dfa env s hm hF hfs jump) hfb)
    · exact hst (by simp [Code.straight])
  · split
    · exact hfb
    · exact .nil

theorem exits_genGoto (j : CodeJump) (hj : j.dest ∈ dfa.states) :
    AllExits env (EntersUsed opts dfa) (genGoto opts dfa (some s) j) := by
  have ht := exits_genTransition opts dfa env j hj
  unfold genGoto
  split
  · rename_i s' _ h _
    cases h
    dsimp only [genFill]
    have hf := exits_fillStmts opts dfa env s hm hF hfs (some j)
    split
    · exact exits_genIf opts env _ hf ht
    · exact hf.append ht
  · exact ht

end

def allUsedDfa : Adfa :=
  { (default : Adfa) with state := fun s => { (default : State) with label := ⟨s, true⟩ } }

/-- Loop/switch mode with `YYFILL`, its check, and an end-of-input rule. -/
def eofLoopOpts : Opts :=
  { (default : Opts) with
    codeModel := .loopSwitch, fillEnable := true, fillCheck := true, fillEof := some 0 }

def eofJump : CodeJump := { (default : CodeJump) with dest := 1, eof := true }

/-- Too little input for any character, and `YYFILL` succeeds. -/
def refillEnv : Env := { (default : Env) with lessThan := fun _ => true, fillOk := true }

def shortEnv : Env := { (default : Env) with lessThan := fun _ => true }

theorem genGoto_eof_check_loop :
    eofLoopOpts.fillEof.isSome = true ∧ eofLoopOpts.fillCheck = true ∧
      eofLoopOpts.storableState = false ∧ eofJump.eof = true ∧
    Reaches eofLoopOpts allUsedDfa eofJump eofJump.dest
      (jumpMem eofLoopOpts allUsedDfa default eofJump default)
      (exec default (genGoto eofLoopOpts allUsedDfa (some 0) eofJump) default) ∧
    exec refillEnv (genGoto eofLoopOpts allUsedDfa (some 0) eofJump) default =
      .jump ((default : Mem).afterFill true) (fillReentry eofLoopOpts allUsedDfa 0) ∧
    Reaches eofLoopOpts allUsedDfa eofJump (allUsedDfa.fallback 0).1
      (runTags eofLoopOpts allUsedDfa shortEnv (falltags allUsedDfa 0) ((default : Mem).afterFill false))
      (exec shortEnv (genGoto eofLoopOpts allUsedDfa (some 0) eofJump) default) :=
  ⟨rfl, rfl, rfl, rfl,
    (genGoto_eof_check eofLoopOpts allUsedDfa default default 0 eofJump rfl rfl rfl rfl).1 rfl,
    (genGoto_eof_check eofLoopOpts allUsedDfa refillEnv default 0 eofJump rfl rfl rfl rfl).2.1 rfl rfl rfl,
    (genGoto_eof_check eofLoopOpts allUsedDfa shortEnv default 0 eofJump rfl rfl rfl rfl).2.2 rfl
      fun _ => rfl⟩

end Re2cCodegen.Transitions
