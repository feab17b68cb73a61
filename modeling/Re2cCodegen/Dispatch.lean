import Re2cCodegen.Transitions

/-! The dispatch on `yych` that ends a state: a switch, a tree of IFs, a bitmap test or a
computed `goto`, each leaf the code of one transition. -/

namespace Re2cCodegen.Dispatch

open Re2cCodegen.Options Re2cCodegen.Dfa Re2cCodegen.Output Re2cCodegen.TagActions
  Re2cCodegen.Transitions

def genCond (cond : CodeCmp) : Cond := .cmp cond.cmp (.var .yych) (.num cond.val)

def genGosw (opts : Opts) (dfa : Adfa) (go : CodeGoSw) (fromState : StateId) : List Code :=
  let cases := (go.cases.enum.filter fun (i, _) => i ≠ go.defcase).map fun (_, c) =>
    (CaseLbl.ranges (c.ranges.map fun r => ((r.1 : Int), (r.2 : Int))),
      genGoto opts dfa (some fromState) c.jump)
  let defcase := (go.cases.get? go.defcase).map fun c =>
    (CaseLbl.dflt, genGoto opts dfa (some fromState) c.jump)
  [.switch (.var .yych) (cases ++ defcase.toList)]

def genGoifl (opts : Opts) (dfa : Adfa) (fromState : StateId) (branches : List Branch) :
    List Code :=
  if opts.codeModel ≠ .recFunc then
    -- a chain of IFs rather than IF/ELSE-IF, so that the last YYSKIP folds with the next YYPEEK
    branches.flatMap fun b => match b.cond with
      | some c => [.ifte (genCond c) (genGoto opts dfa (some fromState) b.jump) []]
      | none => genGoto opts dfa (some fromState) b.jump
  else match branches with
    | [⟨none, j⟩] => genGoto opts dfa (some fromState) j
    | _ => [.branches (branches.map fun b =>
        (b.cond.map genCond, genGoto opts dfa (some fromState) b.jump))]

def genGoif (opts : Opts) (dfa : Adfa) (fromState : StateId) : CodeGoIf → List Code
  | .binary cond gothen goelse =>
    [.ifte (genCond cond) (genGoif opts dfa fromState gothen) (genGoif opts dfa fromState goelse)]
  | .linear branches => genGoifl opts dfa fromState branches

def genGoswif (opts : Opts) (dfa : Adfa) (fromState : StateId) : CodeGoSwIf → List Code
  | .switch gosw => genGosw opts dfa gosw fromState
  | .ifs goif => genGoif opts dfa fromState goif

def genGobm (opts : Opts) (dfa : Adfa) (go : CodeGoBm) (fromState : StateId) : List Code :=
  let elifCond := Cond.bitmap go.offset go.mask
  let ifElse := genGoto opts dfa (some fromState) ⟨go.state, tcid0, false, false, false⟩
  (match go.hgo with
    | some hgo => [.branches [(some .wide, genGoswif opts dfa fromState hgo), (some elifCond, ifElse)]]
    | none => [.ifte elifCond ifElse []]) ++
  match go.lgo with
  | some lgo => genGoswif opts dfa fromState lgo
  | none => []

def genGocpTable (dfa : Adfa) (table : List StateId) : List Code :=
  [.array .yytarget (table.map fun s => .num (dfa.label s).index)]

def genGocp (opts : Opts) (dfa : Adfa) (go : CodeGoCp) (fromState : StateId) : List Code :=
  let ifElse := genGocpTable dfa go.table ++ [.gotoTable .yytarget (.var .yych)]
  match go.hgo with
  | some hgo => [.ifte .wide (genGoswif opts dfa fromState hgo) ifElse]
  | none => [.block ifElse]

/-- The edges of the state in the DOT graph; the text of an edge label (its character ranges
and tag names) is not kept. -/
def genGodot (dfa : Adfa) (go : CodeGoSw) (fromState : StateId) : List Code :=
  let edge := fun (c : CodeGoCase) =>
    toString (dfa.label fromState).index ++ " -> " ++ toString (dfa.label c.jump.dest).index
  match go.cases with
  | [c] => [.text (edge c)]
  | cases => cases.map fun c => .text (edge c ++ " [label=\"\"]")

def genGo (opts : Opts) (dfa : Adfa) (go : CodeGo) (fromState : StateId) : List Code :=
  -- with the end-of-input rule the tags come before the fill label, in `gen_fill_and_label`
  let pre := (if opts.fillEof.isNone then genSettags opts dfa go.tags else []) ++
    if go.skip then [.skip] else []
  match go.kind with
  | .dot godot => genGodot dfa godot fromState
  | .switchIf goswif => pre ++ genGoswif opts dfa fromState goswif
  | .bitmap gobm => pre ++ genGobm opts dfa gobm fromState
  | .cpgoto gocp => pre ++ genGocp opts dfa gocp fromState

/-! Which transition the dispatch takes for a value of `yych`. -/

def covers (ranges : List (Nat × Nat)) (c : Option Int) : Bool :=
  c.any fun x => ranges.any fun r => decide ((r.1 : Int) ≤ x ∧ x < r.2)

def selectSwitch (go : CodeGoSw) (c : Option Int) : Option CodeJump :=
  match (go.cases.enum.filter fun (i, _) => i ≠ go.defcase).find? (fun (_, k) => covers k.ranges c) with
  | some (_, k) => some k.jump
  | none => (go.cases.get? go.defcase).map (·.jump)

def selectBranch (branches : List Branch) (c : Option Int) : Option CodeJump :=
  (branches.find? fun b => b.cond.all fun cc => cc.cmp.holds c (some cc.val)).map (·.jump)

def selectGoif : CodeGoIf → Option Int → Option CodeJump
  | .binary cond gothen goelse, c =>
    if cond.cmp.holds c (some cond.val) then selectGoif gothen c else selectGoif goelse c
  | .linear branches, c => selectBranch branches c

def selectSwIf : CodeGoSwIf → Option Int → Option CodeJump
  | .switch gosw, c => selectSwitch gosw c
  | .ifs goif, c => selectGoif goif c

def LinearWF (dfa : Adfa) : List Branch → Prop
  | b :: bs@(_ :: _) => b.cond.isSome ∧ emitsTransfer dfa b.jump ∧ LinearWF dfa bs
  | _ => True

def GoifWF (dfa : Adfa) : CodeGoIf → Prop
  | .binary _ gothen goelse => GoifWF dfa gothen ∧ GoifWF dfa goelse
  | .linear branches => LinearWF dfa branches

def GoswifWF (dfa : Adfa) : CodeGoSwIf → Prop
  | .switch _ => True
  | .ifs goif => GoifWF dfa goif

section

variable (opts : Opts) (dfa : Adfa) (env : Env) (s : StateId)

def execSelected : Option CodeJump → Mem → Outcome
  | some j, m => exec env (genGoto opts dfa (some s) j) m
  | none, m => .next m

@[simp] theorem eval_genCond (c : CodeCmp) (m : Mem) :
    (genCond c).eval env m = (c.cmp.holds (m.get .yych) (some c.val), m) := rfl

theorem exec_genGoifl_chain (hm : opts.codeModel ≠ .recFunc) (bs : List Branch)
    (hwf : LinearWF dfa bs) (m : Mem) :
    exec env (genGoifl opts dfa s bs) m =
      execSelected opts dfa env s (selectBranch bs (m.get .yych)) m := by
  induction bs with
  | nil => simp [genGoifl, hm, selectBranch, execSelected]
  | cons b bs ih =>
    have hcons : genGoifl opts dfa s (b :: bs) =
        (match b.cond with
          | some c => [.ifte (genCond c) (genGoto opts dfa (some s) b.jump) []]
          | none => genGoto opts dfa (some s) b.jump) ++ genGoifl opts dfa s bs := by
      simp [genGoifl, hm]
    rw [hcons, exec_append]
    cases bs with
    | nil =>
      rcases hc : b.cond with _ | c
      · simp [genGoifl, hm, selectBranch, hc, execSelected]
      · by_cases hh : c.cmp.holds (m.get .yych) (some c.val) <;>
          simp [genGoifl, hm, exec_cons, step, hh, selectBranch, hc, execSelected]
    | cons b' bs =>
      simp only [LinearWF] at hwf
      obtain ⟨hsome, hemit, hrest⟩ := hwf
      obtain ⟨c, hc⟩ := Option.isSome_iff_exists.mp hsome
      by_cases hh : c.cmp.holds (m.get .yych) (some c.val)
      · simp [exec_cons, step, hh, hc, selectBranch, execSelected,
          Outcome.bind_of_isJump (genGoto_isJump opts dfa env m hm _ _ hemit)]
      · simp [exec_cons, step, hh, hc, ih hrest, selectBranch, execSelected]

theorem execBranches_select (bs : List Branch) (m : Mem) :
    execBranches env (bs.map fun b => (b.cond.map genCond, genGoto opts dfa (some s) b.jump)) m =
      execSelected opts dfa env s (selectBranch bs (m.get .yych)) m := by
  induction bs with
  | nil => rfl
  | cons b bs ih =>
    obtain ⟨_ | c, j⟩ := b
    · simp [execBranches, execBranch, selectBranch, execSelected]
    · by_cases hh : c.cmp.holds (m.get .yych) (some c.val) <;>
        simp [execBranches, execBranch, hh, ih, selectBranch, execSelected]

theorem exec_genGoifl_rec (hm : opts.codeModel = .recFunc) (bs : List Branch) (m : Mem) :
    exec env (genGoifl opts dfa s bs) m =
      execSelected opts dfa env s (selectBranch bs (m.get .yych)) m := by
  unfold genGoifl
  rw [if_neg (by simp [hm])]
  split
  · simp [selectBranch, execSelected]
  · simp [exec_cons, step, execBranches_select]

theorem exec_genGoifl (bs : List Branch) (hwf : LinearWF dfa bs) (m : Mem) :
    exec env (genGoifl opts dfa s bs) m =
      execSelected opts dfa env s (selectBranch bs (m.get .yych)) m := by
  by_cases hm : opts.codeModel = .recFunc
  · exact exec_genGoifl_rec opts dfa env s hm bs m
  · exact exec_genGoifl_chain opts dfa env s hm bs hwf m

theorem exec_genGoif (go : CodeGoIf) (hwf : GoifWF dfa go) (m : Mem) :
    exec env (genGoif opts dfa s go) m =
      execSelected opts dfa env s (selectGoif go (m.get .yych)) m := by
  induction go with
  | binary c t e iht ihe =>
    by_cases hh : c.cmp.holds (m.get .yych) (some c.val) <;>
      simp [genGoif, selectGoif, exec_cons, step, hh, iht hwf.1, ihe hwf.2]
  | linear bs => exact exec_genGoifl opts dfa env s bs hwf m

theorem hits_ranges (rs : List (Nat × Nat)) (c : Option Int) :
    (CaseLbl.ranges (rs.map fun r => ((r.1 : Int), (r.2 : Int)))).hits env c = covers rs c := by
  cases c with
  | none => rfl
  | some x =>
    induction rs with
    | nil => rfl
    | cons r rs ih => simp_all [CaseLbl.hits, covers]

theorem exec_genGosw (go : CodeGoSw) (m : Mem) :
    exec env (genGosw opts dfa go s) m =
      execSelected opts dfa env s (selectSwitch go (m.get .yych)) m := by
  have hf : (go.cases.enum.find? fun _ => false) = none := List.find?_eq_none.mpr (by simp)
  simp only [genGosw, selectSwitch, exec_cons, exec_nil_eq, Outcome.bind_next', step_switch,
    List.find?_append, List.find?_map, List.find?_filter, Function.comp_def, hits_ranges, Expr.eval]
  rcases h : List.find? (fun a => !decide (a.1 = go.defcase) && covers a.2.ranges (m.get .yych))
    go.cases.enum with _ | ⟨i, k⟩ <;>
  cases hd : go.cases.get? go.defcase <;> simp [h, hd, hf, CaseLbl.hits, execSelected]

theorem genGosw_arms (go : CodeGoSw) : ∃ cs, genGosw opts dfa go s = [.switch (.var .yych) cs] ∧
    ∀ x ∈ cs, ∃ c ∈ go.cases, x.2 = genGoto opts dfa (some s) c.jump := by
  refine ⟨_, rfl, fun x hx => ?_⟩
  simp only [List.mem_append, List.mem_map, List.mem_filter] at hx
  rcases hx with ⟨⟨i, c⟩, ⟨hc, -⟩, rfl⟩ | hx
  · exact ⟨c, List.snd_mem_of_mem_enum hc, rfl⟩
  · cases hdc : go.cases.get? go.defcase with
    | none => simp only [hdc, Option.map_none', Option.toList_none, List.not_mem_nil] at hx
    | some c =>
      simp only [hdc, Option.map_some', Option.toList_some, List.mem_singleton] at hx
      exact ⟨c, List.get?_mem hdc, by rw [hx]⟩

theorem exec_genGoswif (go : CodeGoSwIf) (hwf : GoswifWF dfa go) (m : Mem) :
    exec env (genGoswif opts dfa s go) m =
      execSelected opts dfa env s (selectSwIf go (m.get .yych)) m := by
  cases go with
  | switch gosw => exact exec_genGosw opts dfa env s gosw m
  | ifs goif => exact exec_genGoif opts dfa env s goif hwf m

theorem genGoswif_selects :
    (∀ bs, LinearWF dfa bs → ∀ m, exec env (genGoifl opts dfa s bs) m =
      execSelected opts dfa env s (selectBranch bs (m.get .yych)) m) ∧
    (∀ go, GoswifWF dfa go → ∀ m, exec env (genGoswif opts dfa s go) m =
      execSelected opts dfa env s (selectSwIf go (m.get .yych)) m) :=
  ⟨exec_genGoifl opts dfa env s, exec_genGoswif opts dfa env s⟩

end

def twoBranches : List Branch :=
  [⟨some ⟨.lt, 10⟩, ⟨1, tcid0, false, false, false⟩⟩, ⟨none, ⟨2, tcid0, false, false, false⟩⟩]

theorem genGoswif_selects_two :
    LinearWF allUsedDfa twoBranches ∧ GoswifWF allUsedDfa (.ifs (.linear twoBranches)) ∧
    exec default (genGoifl default allUsedDfa 0 twoBranches) default =
      execSelected default allUsedDfa default 0 (selectBranch twoBranches ((default : Mem).get .yych))
        default ∧
    exec default (genGoswif default allUsedDfa 0 (.ifs (.linear twoBranches))) default =
      execSelected default allUsedDfa default 0
        (selectSwIf (.ifs (.linear twoBranches)) ((default : Mem).get .yych)) default := by
  have h : LinearWF allUsedDfa twoBranches := by
    simp [LinearWF, twoBranches, emitsTransfer, allUsedDfa, Adfa.label]
  exact ⟨h, h, (genGoswif_selects default allUsedDfa default 0).1 _ h _,
    (genGoswif_selects default allUsedDfa default 0).2 (.ifs (.linear twoBranches)) h _⟩

/-! The bitmap test of `gen_gobm` and the computed `goto` of `gen_gocp`, and the dispatch of
every kind behind the tags and the `YYSKIP` that `gen_go` puts before it. -/

def wide (c : Option Int) : Bool := c.any fun x => decide (x < 0 ∨ 256 ≤ x)

def bmHolds (yybm : Nat → Nat) (go : CodeGoBm) (c : Option Int) : Bool :=
  c.any fun x => yybm (go.offset + x.toNat) &&& go.mask != 0

def bmJump (go : CodeGoBm) : CodeJump := ⟨go.state, tcid0, false, false, false⟩

def selectOpt (go : Option CodeGoSwIf) (c : Option Int) : Option CodeJump := go.bind (selectSwIf · c)

def selectGobm (yybm : Nat → Nat) (go : CodeGoBm) (c : Option Int) : Option CodeJump :=
  (if go.hgo.isSome && wide c then selectOpt go.hgo c
    else if bmHolds yybm go c then some (bmJump go) else none).or (selectOpt go.lgo c)

def cpJump (go : CodeGoCp) (c : Option Int) : Option CodeJump :=
  c.bind fun x => if 0 ≤ x then (go.table.get? x.toNat).map fun t => ⟨t, tcid0, false, false, false⟩
    else none

def selectGocp (go : CodeGoCp) (c : Option Int) : Option CodeJump :=
  if go.hgo.isSome && wide c then selectOpt go.hgo c else cpJump go c

def selectGo (yybm : Nat → Nat) : GoKind → Option Int → Option CodeJump
  | .dot _, _ => none
  | .switchIf go, c => selectSwIf go c
  | .bitmap go, c => selectGobm yybm go c
  | .cpgoto go, c => selectGocp go c

def goTables (dfa : Adfa) : GoKind → Option Int → Mem → Mem
  | .cpgoto go, c, m => if go.hgo.isSome && wide c then m
    else { m with tables := Function.update m.tables .yytarget (go.table.map fun s => .num (dfa.label s).index) }
  | _, _, m => m

/-- `YYSKIP` when `b` holds. -/
def skipIf (b : Bool) (m : Mem) : Mem := if b then m.shift .cursor 1 else m

/-- The memory after what `gen_go` emits before the dispatch: the state's tags, unless the
end-of-input rule has put them before the fill label, and its `YYSKIP`. -/
def preMem (opts : Opts) (dfa : Adfa) (env : Env) (go : CodeGo) (m : Mem) : Mem :=
  skipIf go.skip (if opts.fillEof.isNone then runTags opts dfa env go.tags m else m)

def Transfers (opts : Opts) (dfa : Adfa) (j : CodeJump) : Prop :=
  emitsTransfer dfa j = true ∧ (opts.codeModel = .recFunc → j.eof = false)

def DispatchWF (opts : Opts) (dfa : Adfa) : GoKind → Prop
  | .dot _ => True
  | .switchIf go => GoswifWF dfa go
  | .bitmap go => (∀ g ∈ go.hgo, GoswifWF dfa g) ∧ (∀ g ∈ go.lgo, GoswifWF dfa g) ∧
    (go.lgo.isSome → (∀ c, ∀ j ∈ selectOpt go.hgo c, Transfers opts dfa j) ∧
      Transfers opts dfa (bmJump go))
  | .cpgoto go => opts.codeModel = .gotoLabel ∧ (∀ g ∈ go.hgo, GoswifWF dfa g) ∧
    ∀ t ∈ go.table, (dfa.label t).used = true

section

variable (opts : Opts) (dfa : Adfa) (env : Env) (s : StateId)

theorem transfers_isJump {j : CodeJump} (h : Transfers opts dfa j) (m : Mem) :
    (exec env (genGoto opts dfa (some s) j) m).isJump := by
  by_cases hm : opts.codeModel = .recFunc
  · have hg : genGoto opts dfa (some s) j = genTransition opts dfa j := by simp [genGoto, h.2 hm]
    rw [hg, exec_genTransition, if_pos h.1]
    rfl
  · exact genGoto_isJump opts dfa env m hm _ j h.1

@[simp] theorem eval_bitmap (go : CodeGoBm) (m : Mem) :
    (Cond.bitmap go.offset go.mask).eval env m = (bmHolds env.yybm go (m.get .yych), m) := rfl

@[simp] theorem eval_wide (m : Mem) : Cond.wide.eval env m = (wide (m.get .yych), m) := rfl

theorem exec_then_lgo {A B : List Code} {head sel : Option CodeJump} {m : Mem}
    (hA : exec env A m = execSelected opts dfa env s head m)
    (hB : exec env B m = execSelected opts dfa env s sel m)
    (ht : ∀ j ∈ head, B ≠ [] → Transfers opts dfa j) :
    exec env (A ++ B) m = execSelected opts dfa env s (head.or sel) m := by
  rw [exec_append, hA]
  cases head with
  | none => exact hB
  | some j =>
    by_cases hB0 : B = []
    · subst hB0
      exact Outcome.bind_next' _
    · exact Outcome.bind_of_isJump (transfers_isJump opts dfa env s (ht j rfl hB0) m) _

theorem exec_bmHead (go : CodeGoBm) (hh : ∀ g ∈ go.hgo, GoswifWF dfa g) (m : Mem) :
    exec env (go.hgo.elim [.ifte (.bitmap go.offset go.mask) (genGoto opts dfa (some s) (bmJump go)) []]
      (fun g => [.branches [(some .wide, genGoswif opts dfa s g),
        (some (.bitmap go.offset go.mask), genGoto opts dfa (some s) (bmJump go))]])) m =
      execSelected opts dfa env s (if go.hgo.isSome && wide (m.get .yych) then selectOpt go.hgo (m.get .yych)
        else if bmHolds env.yybm go (m.get .yych) then some (bmJump go) else none) m := by
  cases hg : go.hgo with
  | none =>
    cases hb : bmHolds env.yybm go (m.get .yych) <;> simp [exec_cons, step, hb, execSelected]
  | some g =>
    cases hw : wide (m.get .yych)
    · cases hb : bmHolds env.yybm go (m.get .yych) <;>
        simp [exec_cons, step, execBranches, execBranch, hw, hb, execSelected]
    · simp [exec_cons, step, execBranches, execBranch, hw, selectOpt,
        exec_genGoswif opts dfa env s g (hh g hg)]

theorem exec_optGoswif (go : Option CodeGoSwIf) (hwf : ∀ g ∈ go, GoswifWF dfa g) (m : Mem) :
    exec env ((go.map (genGoswif opts dfa s)).getD []) m =
      execSelected opts dfa env s (selectOpt go (m.get .yych)) m := by
  cases go with
  | none => rfl
  | some g => exact exec_genGoswif opts dfa env s g (hwf g rfl) m

theorem genGobm_eq (go : CodeGoBm) : genGobm opts dfa go s =
    go.hgo.elim [.ifte (.bitmap go.offset go.mask) (genGoto opts dfa (some s) (bmJump go)) []]
      (fun g => [.branches [(some .wide, genGoswif opts dfa s g),
        (some (.bitmap go.offset go.mask), genGoto opts dfa (some s) (bmJump go))]]) ++
    (go.lgo.map (genGoswif opts dfa s)).getD [] := by
  obtain ⟨st, off, mask, hgo, lgo⟩ := go
  cases hgo <;> cases lgo <;> rfl

theorem exec_genGobm (go : CodeGoBm) (hwf : DispatchWF opts dfa (.bitmap go)) (m : Mem) :
    exec env (genGobm opts dfa go s) m =
      execSelected opts dfa env s (selectGobm env.yybm go (m.get .yych)) m := by
  obtain ⟨hh, hl, ht⟩ := hwf
  have hB0 : (go.lgo.map (genGoswif opts dfa s)).getD [] ≠ [] → go.lgo.isSome := by
    cases go.lgo
    · exact fun h => absurd rfl h
    · exact fun _ => rfl
  rw [genGobm_eq]
  refine exec_then_lgo opts dfa env s (exec_bmHead opts dfa env s go hh m)
    (exec_optGoswif opts dfa env s go.lgo hl m) fun j hj h => ?_
  have htr := ht (hB0 h)
  split at hj
  · exact htr.1 _ j hj
  · split at hj
    · cases hj
      exact htr.2
    · cases hj

theorem exec_cpTable (go : CodeGoCp) (hmodel : opts.codeModel = .gotoLabel)
    (hused : ∀ t ∈ go.table, (dfa.label t).used = true) {j : CodeJump} (m : Mem)
    (hj : cpJump go (m.get .yych) = some j) :
    exec env (genGocpTable dfa go.table ++ [.gotoTable .yytarget (.var .yych)]) m =
      exec env (genGoto opts dfa (some s) j)
        { m with tables := Function.update m.tables .yytarget (go.table.map fun s => .num (dfa.label s).index) } := by
  obtain ⟨x, hx, hj⟩ := Option.bind_eq_some.1 hj
  split at hj
  · obtain ⟨t, ht, rfl⟩ := Option.map_eq_some'.1 hj
    have hg : genGoto opts dfa (some s) ⟨t, tcid0, false, false, false⟩ =
        genTransition opts dfa ⟨t, tcid0, false, false, false⟩ := rfl
    have ht' : go.table[x.toNat]? = some t := by rwa [← List.get?_eq_getElem?]
    rw [hg, exec_genTransition, if_pos (by simp [emitsTransfer, hused t (List.get?_mem ht)])]
    simp only [Mem.get] at hx
    simp [genGocpTable, exec_cons, step, Expr.eval, Mem.get, tableExit, hx, ht', *, stateExit, jumpMem]
  · cases hj

theorem genGocp_eq (go : CodeGoCp) : genGocp opts dfa go s =
    go.hgo.elim [.block (genGocpTable dfa go.table ++ [.gotoTable .yytarget (.var .yych)])]
      fun g => [.ifte .wide (genGoswif opts dfa s g)
        (genGocpTable dfa go.table ++ [.gotoTable .yytarget (.var .yych)])] := by
  obtain ⟨table, hgo⟩ := go
  cases hgo <;> rfl

theorem exec_genGocp (go : CodeGoCp) (hwf : DispatchWF opts dfa (.cpgoto go)) {j : CodeJump} (m : Mem)
    (hj : selectGocp go (m.get .yych) = some j) :
    exec env (genGocp opts dfa go s) m =
      exec env (genGoto opts dfa (some s) j) (goTables dfa (.cpgoto go) (m.get .yych) m) := by
  obtain ⟨hmodel, hh, hused⟩ := hwf
  cases hg : go.hgo with
  | none =>
    have hj' : cpJump go (m.get .yych) = some j := by simpa [selectGocp, hg] using hj
    simpa [genGocp_eq, hg, goTables, exec_cons, step] using exec_cpTable opts dfa env s go hmodel hused m hj'
  | some g =>
    cases hw : wide (m.get .yych)
    · have hj' : cpJump go (m.get .yych) = some j := by simpa [selectGocp, hg, hw] using hj
      simpa [genGocp_eq, hg, hw, goTables, exec_cons, step] using
        exec_cpTable opts dfa env s go hmodel hused m hj'
    · have hj' : selectSwIf g (m.get .yych) = some j := by simpa [selectGocp, hg, hw, selectOpt] using hj
      simp [genGocp_eq, hg, hw, goTables, exec_cons, step, exec_genGoswif opts dfa env s g (hh g hg), hj',
        execSelected]

theorem exec_genGo_pre (go : CodeGo) (m : Mem) :
    exec env ((if opts.fillEof.isNone then genSettags opts dfa go.tags else []) ++
      if go.skip then [.skip] else []) m = .next (preMem opts dfa env go m) := by
  unfold preMem skipIf
  cases opts.fillEof.isNone <;> cases go.skip <;> simp [exec_genSettags_next, step]

@[simp] theorem preMem_yych (go : CodeGo) (m : Mem) : (preMem opts dfa env go m).get .yych = m.get .yych := by
  unfold preMem skipIf
  split_ifs <;> simp [Mem.shift, isTagVar]

theorem exec_genGo_eq (go : CodeGo) (hwf : DispatchWF opts dfa go.kind) {j : CodeJump} (m : Mem)
    (hj : selectGo env.yybm go.kind (m.get .yych) = some j) :
    exec env (genGo opts dfa go s) m =
      exec env (genGoto opts dfa (some s) j)
        (goTables dfa go.kind (m.get .yych) (preMem opts dfa env go m)) := by
  have hc := preMem_yych opts dfa env go m
  unfold genGo
  cases hk : go.kind with
  | dot g => rw [hk] at hj; cases hj
  | switchIf g =>
    rw [hk] at hwf hj
    rw [exec_append, exec_genGo_pre, Outcome.bind_next, exec_genGoswif opts dfa env s g hwf, hc]
    simp only [selectGo] at hj
    simp [hj, execSelected, goTables]
  | bitmap g =>
    rw [hk] at hwf hj
    rw [exec_append, exec_genGo_pre, Outcome.bind_next, exec_genGobm opts dfa env s g hwf, hc]
    simp only [selectGo] at hj
    simp [hj, execSelected, goTables]
  | cpgoto g =>
    rw [hk] at hwf hj
    rw [exec_append, exec_genGo_pre, Outcome.bind_next,
      exec_genGocp opts dfa env s g hwf _ (by rw [hc]; exact hj), hc]

theorem exec_genGo (go : CodeGo) (hwf : DispatchWF opts dfa go.kind) {j : CodeJump} (m : Mem)
    (hj : selectGo env.yybm go.kind (m.get .yych) = some j) :
    exec env (genGo opts dfa go s) m =
      exec env (genGoto opts dfa (some s) j)
        (goTables dfa go.kind (m.get .yych) (preMem opts dfa env go m)) :=
  exec_genGo_eq opts dfa env s go hwf m hj

end

def bitmapGo : CodeGo :=
  { kind := .bitmap ⟨1, 0, 0x80, none, some (.switch ⟨[⟨[], ⟨2, tcid0, false, false, false⟩⟩], 0⟩)⟩,
    span := [⟨97, 2⟩, ⟨98, 1⟩, ⟨256, 2⟩], tags := tcid0, skip := true }

def bitmapEnv : Env :=
  { (default : Env) with input := fun p => if p = 1 then 97 else 0, yybm := fun i => if i = 97 then 0x80 else 0 }

theorem exec_genGo_bitmap :
    DispatchWF default allUsedDfa bitmapGo.kind ∧
    selectGo bitmapEnv.yybm bitmapGo.kind (some 97) = some ⟨1, tcid0, false, false, false⟩ ∧
    exec bitmapEnv (genGo default allUsedDfa bitmapGo 0) ((default : Mem).setPos .yych (some 97)) =
      exec bitmapEnv (genGoto default allUsedDfa (some 0) ⟨1, tcid0, false, false, false⟩)
        (goTables allUsedDfa bitmapGo.kind (some 97)
          (preMem default allUsedDfa bitmapEnv bitmapGo ((default : Mem).setPos .yych (some 97)))) := by
  have hwf : DispatchWF default allUsedDfa bitmapGo.kind := by
    refine ⟨fun _ h => ?_, fun g hg => ?_, fun _ => ⟨fun _ _ hj => ?_, rfl, fun h => ?_⟩⟩
    · cases h
    · cases hg
      trivial
    · cases hj
    · cases h
  exact ⟨hwf, rfl, exec_genGo default allUsedDfa bitmapEnv 0 bitmapGo hwf _ rfl⟩

end Re2cCodegen.Dispatch
