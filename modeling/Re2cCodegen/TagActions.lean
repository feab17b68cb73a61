import Re2cCodegen.Options
import Re2cCodegen.Output

/-! Tag actions: the statements `gen_settags` emits for a tag-command list, and that they
run the commands one after another, for the default API's batched saves as well. -/

namespace Re2cCodegen.TagActions

open Re2cCodegen.Options Re2cCodegen.Dfa Re2cCodegen.Output

def negative (c : TagCmd) : Bool := c.history.headD tagverZero == tagverBottom

/-- The default API's batch for a run of save commands: one assignment of `NULL` to the
negative ones and one of the cursor to the positive ones, every variable named as an m-tag
or not after the first command of the run. -/
def genSaveRun (isMtag : Bool) (run : List TagCmd) : List Code :=
  let neg := (run.filter negative).map fun q => Var.tag q.lhs isMtag
  let pos := (run.filter fun q => !negative q).map fun q => Var.tag q.lhs isMtag
  (if neg.isEmpty then [] else [.assign neg .null]) ++
    (if pos.isEmpty then [] else [.assign pos (.var .cursor)])

/-- The loop of `gen_settags` over a command list. -/
def genTagCmds (generic : Bool) (mtagvers : Int → Bool) : List TagCmd → List Code
  | [] => []
  | p :: ps =>
    let isMtag := mtagvers p.lhs
    let le := Var.tag p.lhs isMtag
    let re := Var.tag p.rhs isMtag
    if p.iscopy then
      .assign [le] (.var re) :: genTagCmds generic mtagvers ps
    else if p.isadd then
      -- history is reversed: iterate from its end back
      ((if p.lhs ≠ p.rhs then [.assign [le] (.var re)] else []) ++
        p.entries.reverse.map fun h => .setTag (h == tagverBottom) true le) ++
        genTagCmds generic mtagvers ps
    else if generic then
      .setTag (negative p) false le :: genTagCmds generic mtagvers ps
    else
      genSaveRun isMtag (p :: ps.takeWhile TagCmd.isset) ++
        genTagCmds generic mtagvers (ps.dropWhile TagCmd.isset)
termination_by cmds => cmds.length
decreasing_by
  all_goals simp_wf
  all_goals first
    | omega
    | have := (List.dropWhile_suffix (l := ps) TagCmd.isset).length_le; omega

def genSettags (opts : Opts) (dfa : Adfa) (tcid : Tcid) : List Code :=
  let cmd := dfa.tcpool tcid
  if !cmd.isEmpty && dfa.oldstyleCtxmarker then
    -- single tag, backwards compatibility: use the context marker
    if opts.api == .custom then [.backupCtx] else [.assign [.ctxmarker] (.var .cursor)]
  else genTagCmds (opts.api == .custom) dfa.mtagvers cmd

@[simp] theorem genSettags_tcid0 (opts : Opts) (dfa : Adfa) : genSettags opts dfa tcid0 = [] := by
  simp [genSettags, dfa.tcpool_tcid0, genTagCmds]

def tagStmt : Code → Bool
  | .assign _ e => !e.readsYych
  | .setTag .. | .backupCtx => true
  | _ => false

def isTagVar : Var → Bool
  | .tag .. | .ctxmarker => true
  | _ => false

def writesTag : Code → Bool
  | .assign ls _ => ls.any isTagVar
  | .sub v _ | .shift (some v) _ _ => isTagVar v
  | .setTag .. | .backupCtx => true
  | _ => false

theorem saveRun_stmt {l : List TagCmd} {m : Bool} {e : Expr} {c : Code}
    (hc : c ∈ if (l.map fun q => Var.tag q.lhs m).isEmpty then []
      else [.assign (l.map fun q => Var.tag q.lhs m) e]) (he : e.readsYych = false) :
    tagStmt c = true ∧ writesTag c = true := by
  split at hc
  · simp at hc
  · rename_i hne
    rw [List.mem_singleton] at hc
    subst hc
    obtain ⟨q, hq⟩ := List.exists_mem_of_ne_nil _ (by simpa using hne)
    exact ⟨by simp [tagStmt, he], List.any_eq_true.2 ⟨_, List.mem_map_of_mem _ hq, rfl⟩⟩

theorem genTagCmds_tagStmt (generic : Bool) (mt : Int → Bool) (cmds : List TagCmd) :
    ∀ c ∈ genTagCmds generic mt cmds, tagStmt c = true ∧ writesTag c = true := by
  induction cmds using genTagCmds.induct generic mt with
  | case1 => simp [genTagCmds]
  | case2 p ps h ih => rw [genTagCmds, if_pos h]; simpa [tagStmt, writesTag, isTagVar, Expr.readsYych] using ih
  | case3 p ps h h' ih =>
    rw [genTagCmds, if_neg h, if_pos h']
    simp only [List.mem_append, List.mem_map]
    rintro c ((hc | ⟨_, -, rfl⟩) | hc)
    · split at hc <;> simp_all [tagStmt, writesTag, isTagVar, Expr.readsYych]
    · exact ⟨rfl, rfl⟩
    · exact ih c hc
  | case4 p ps h h' hg ih => rw [genTagCmds, if_neg h, if_neg h', if_pos hg]; simpa [tagStmt, writesTag, isTagVar, Expr.readsYych] using ih
  | case5 p ps h h' hg ih =>
    rw [genTagCmds, if_neg h, if_neg h', if_neg hg]
    simp only [genSaveRun, List.mem_append]
    rintro c ((hc | hc) | hc)
    · exact saveRun_stmt hc rfl
    · exact saveRun_stmt hc rfl
    · exact ih c hc

theorem genSettags_tagStmt (opts : Opts) (dfa : Adfa) (tcid : Tcid) :
    ∀ c ∈ genSettags opts dfa tcid, tagStmt c = true ∧ writesTag c = true := by
  intro c hc
  simp only [genSettags] at hc
  split at hc
  · split at hc <;> simp_all [tagStmt, writesTag, isTagVar, Expr.readsYych]
  · exact genTagCmds_tagStmt _ _ _ c hc

theorem genSettags_straight (opts : Opts) (dfa : Adfa) (tcid : Tcid) :
    ∀ c ∈ genSettags opts dfa tcid, c.straight = true := fun c hc => by
  have := genSettags_tagStmt opts dfa tcid c hc
  cases c <;> simp_all [tagStmt, Code.straight]

/-- The memory after the statements of `gen_settags` for `tcid`: they never jump. -/
def runTags (opts : Opts) (dfa : Adfa) (env : Env) (tcid : Tcid) (m : Mem) : Mem :=
  (exec env (genSettags opts dfa tcid) m).mem

theorem exec_genSettags_next (opts : Opts) (dfa : Adfa) (env : Env) (tcid : Tcid) (m : Mem) :
    exec env (genSettags opts dfa tcid) m = .next (runTags opts dfa env tcid m) :=
  exec_straight env _ (genSettags_straight opts dfa tcid) m

@[simp] theorem runTags_tcid0 (opts : Opts) (dfa : Adfa) (env : Env) (m : Mem) :
    runTags opts dfa env tcid0 m = m := by
  simp [runTags, Outcome.mem]

/-! The tag statements change nothing but tag variables and the context marker. -/

def onlyTags : Code → Bool
  | .assign ls _ => ls.all isTagVar
  | .setTag _ _ v => isTagVar v
  | .backupCtx => true
  | _ => false

def untagged (m : Mem) : Mem :=
  { m with vars := fun v => if isTagVar v then ⟨none, []⟩ else m.vars v }

theorem untagged_set (m : Mem) {v : Var} (h : isTagVar v = true) (x : Val) :
    untagged (m.set v x) = untagged m := by
  simp only [untagged, Mem.vars_set, Mem.set_other, Mem.mk.injEq, and_true]
  funext w
  by_cases hw : w = v
  · subst hw; simp [h]
  · simp [Function.update_noteq hw]

theorem untagged_assign (ls : List Var) (h : ls.all isTagVar = true) (x : Val) (m : Mem) :
    untagged (m.assign ls x) = untagged m := by
  induction ls generalizing m with
  | nil => rfl
  | cons l ls ih =>
    simp only [List.all_cons, Bool.and_eq_true] at h
    exact (ih h.2 _).trans (untagged_set m h.1 x)

theorem step_onlyTags (env : Env) {c : Code} (h : onlyTags c = true) (m : Mem) :
    ∃ m', step env c m = .next m' ∧ untagged m' = untagged m := by
  cases c <;> try cases h
  case assign ls e => exact ⟨_, rfl, untagged_assign ls h _ m⟩
  case setTag neg hist v => cases hist <;> exact ⟨_, rfl, untagged_set m h _⟩
  case backupCtx => exact ⟨_, rfl, untagged_set m (v := .ctxmarker) rfl _⟩

theorem exec_onlyTags (env : Env) {cs : List Code} (h : ∀ c ∈ cs, onlyTags c = true) (m : Mem) :
    ∃ m', exec env cs m = .next m' ∧ untagged m' = untagged m := by
  induction cs generalizing m with
  | nil => exact ⟨m, rfl, rfl⟩
  | cons c cs ih =>
    obtain ⟨m1, h1, hu1⟩ := step_onlyTags env (h c (.head _)) m
    obtain ⟨m2, h2, hu2⟩ := ih (fun c hc => h c (.tail _ hc)) m1
    exact ⟨m2, by rw [exec_cons, h1, Outcome.bind_next, h2], hu2.trans hu1⟩

/-- A statement of `gen_settags`: it writes tag variables or the context marker only, from the
cursor, a tag variable or `NULL`. -/
def settagCode : Code → Bool
  | .assign ls .null => ls.all isTagVar
  | .assign ls (.var v) => ls.all isTagVar && (isTagVar v || v == .cursor)
  | .setTag _ _ v => isTagVar v
  | .backupCtx => true
  | _ => false

theorem settagCode_saveRun {l : List TagCmd} {k : Bool} {e : Expr} {c : Code}
    (he : e = .null ∨ e = .var .cursor)
    (hc : c ∈ if (l.map fun q => Var.tag q.lhs k).isEmpty then []
      else [.assign (l.map fun q => Var.tag q.lhs k) e]) : settagCode c = true := by
  have htags : (l.map fun q => Var.tag q.lhs k).all isTagVar = true :=
    List.all_eq_true.2 fun v hv => by obtain ⟨q, -, rfl⟩ := List.mem_map.1 hv; rfl
  split at hc
  · cases hc
  · rw [List.mem_singleton.1 hc]
    rcases he with rfl | rfl
    · exact htags
    · show (_ && _) = true
      rw [htags]
      rfl

theorem genTagCmds_settagCode (generic : Bool) (mt : Int → Bool) (cmds : List TagCmd) :
    ∀ c ∈ genTagCmds generic mt cmds, settagCode c = true := by
  induction cmds using genTagCmds.induct generic mt with
  | case1 => rw [genTagCmds]; intro c hc; cases hc
  | case2 p ps h ih =>
    rw [genTagCmds, if_pos h]
    rintro c (_ | ⟨_, hc⟩)
    · rfl
    · exact ih c hc
  | case3 p ps h h' ih =>
    rw [genTagCmds, if_neg h, if_pos h']
    simp only [List.mem_append, List.mem_map]
    rintro c ((hc | ⟨_, -, rfl⟩) | hc)
    · split at hc
      · rw [List.mem_singleton.1 hc]; rfl
      · cases hc
    · rfl
    · exact ih c hc
  | case4 p ps h h' hg ih =>
    rw [genTagCmds, if_neg h, if_neg h', if_pos hg]
    rintro c (_ | ⟨_, hc⟩)
    · rfl
    · exact ih c hc
  | case5 p ps h h' hg ih =>
    rw [genTagCmds, if_neg h, if_neg h', if_neg hg]
    simp only [genSaveRun, List.mem_append]
    rintro c ((hc | hc) | hc)
    · exact settagCode_saveRun (.inl rfl) hc
    · exact settagCode_saveRun (.inr rfl) hc
    · exact ih c hc

theorem genSettags_settagCode (opts : Opts) (dfa : Adfa) (tcid : Tcid) :
    ∀ c ∈ genSettags opts dfa tcid, settagCode c = true := by
  intro c hc
  simp only [genSettags] at hc
  split at hc
  · split at hc <;> simp only [List.mem_singleton] at hc <;> subst hc <;> rfl
  · exact genTagCmds_settagCode _ _ _ c hc

theorem onlyTags_of_settagCode {c : Code} (h : settagCode c = true) : onlyTags c = true := by
  unfold settagCode at h
  split at h
  · exact h
  · simp only [Bool.and_eq_true] at h
    exact h.1
  · exact h
  · rfl
  · cases h

theorem genSettags_onlyTags (opts : Opts) (dfa : Adfa) (tcid : Tcid) :
    ∀ c ∈ genSettags opts dfa tcid, onlyTags c = true := fun c hc =>
  onlyTags_of_settagCode (genSettags_settagCode opts dfa tcid c hc)

theorem runTags_untagged (opts : Opts) (dfa : Adfa) (env : Env) (tcid : Tcid) (m : Mem) :
    untagged (runTags opts dfa env tcid m) = untagged m := by
  obtain ⟨m', h, hu⟩ := exec_onlyTags env (genSettags_onlyTags opts dfa tcid) m
  rw [runTags, h]
  exact hu

theorem get_untagged {m m' : Mem} (h : untagged m' = untagged m) {v : Var} (hv : isTagVar v = false) :
    m'.get v = m.get v := by
  have := congrArg (fun m : Mem => (m.vars v).pos) h
  simpa [untagged, hv] using this

@[simp] theorem get_runTags (opts : Opts) (dfa : Adfa) (env : Env) (tcid : Tcid) (m : Mem) {v : Var}
    (hv : isTagVar v = false) : (runTags opts dfa env tcid m).get v = m.get v :=
  get_untagged (runTags_untagged opts dfa env tcid m) hv

/-! What the commands mean, over the variables that hold the tag versions. -/

def tagVar (mtagvers : Int → Bool) (v : Int) : Var := .tag v (mtagvers v)

def tagValue (m : Mem) (h : Int) : Option Int := if h == tagverBottom then none else m.get .cursor

def runCmd (env : Env) (mtagvers : Int → Bool) (m : Mem) (c : TagCmd) : Mem :=
  let l := tagVar mtagvers c.lhs
  if c.isset then m.setPos l (tagValue m (c.history.headD tagverZero))
  else c.entries.reverse.foldl (fun m h => m.push l (tagValue m h))
    (m.set l ((Expr.var (tagVar mtagvers c.rhs)).val env m))

def runCmds (env : Env) (mtagvers : Int → Bool) (cmds : List TagCmd) (m : Mem) : Mem :=
  cmds.foldl (runCmd env mtagvers) m

structure WellFormed (mtagvers : Int → Bool) (cmds : List TagCmd) : Prop where
  lhs_nodup : (cmds.map TagCmd.lhs).Nodup
  save_stag : ∀ c ∈ cmds, c.isset → mtagvers c.lhs = false
  same_kind : ∀ c ∈ cmds, c.isset = false → mtagvers c.rhs = mtagvers c.lhs

theorem WellFormed.sublist {mt : Int → Bool} {l l' : List TagCmd} (h : WellFormed mt l)
    (hs : l'.Sublist l) : WellFormed mt l' :=
  ⟨(hs.map _).nodup h.lhs_nodup, fun c hc => h.save_stag c (hs.subset hc),
    fun c hc => h.same_kind c (hs.subset hc)⟩

theorem isset_of_not (c : TagCmd) (h1 : c.iscopy = false) (h2 : c.isadd = false) :
    c.isset = true := by
  simp only [TagCmd.iscopy, TagCmd.isadd, TagCmd.isset] at *
  by_cases h : c.rhs = tagverZero <;> simp_all

theorem entries_of_iscopy (c : TagCmd) (h : c.iscopy = true) : c.entries = [] := by
  simp only [TagCmd.iscopy, TagCmd.entries, Bool.and_eq_true, beq_iff_eq] at h ⊢
  cases hc : c.history with
  | nil => rfl
  | cons x xs => simp_all

theorem iscopy_isset (c : TagCmd) (h : c.iscopy = true) : c.isset = false := by
  simp_all [TagCmd.iscopy, TagCmd.isset]

theorem isadd_isset (c : TagCmd) (h : c.isadd = true) : c.isset = false := by
  simp_all [TagCmd.isadd, TagCmd.isset]

@[simp] theorem get_cursor_push (m : Mem) (v : Int) (k : Bool) (p : Option Int) :
    (m.push (.tag v k) p).get .cursor = m.get .cursor := by
  simp [Mem.push]

theorem exec_setTags (env : Env) (v : Var) (hs : List Int) (m : Mem) :
    exec env (hs.map fun h => .setTag (h == tagverBottom) true v) m =
      .next (hs.foldl (fun m h => m.push v (tagValue m h)) m) := by
  induction hs generalizing m with
  | nil => rfl
  | cons h hs ih => simp [step, tagValue, ih]

theorem get_setAll_tags (m : Mem) (l : List (Var × Val)) (h : ∀ p ∈ l, p.1 ≠ .cursor) :
    (m.setAll l).get .cursor = m.get .cursor := by
  induction l generalizing m with
  | nil => rfl
  | cons p l ih =>
    rw [Mem.setAll, List.foldl_cons, ← Mem.setAll, ih _ fun q hq => h q (.tail _ hq)]
    simp [Ne.symm (h p (.head _))]

theorem runCmds_saves (env : Env) (mt : Int → Bool) (run : List TagCmd)
    (hset : ∀ c ∈ run, c.isset) (m : Mem) :
    runCmds env mt run m = m.setAll (run.map fun c =>
      (tagVar mt c.lhs, ⟨tagValue m (c.history.headD tagverZero), []⟩)) := by
  induction run generalizing m with
  | nil => rfl
  | cons c cs ih =>
    have hc := hset c (.head _)
    simp only [runCmds, List.foldl_cons, runCmd, hc, if_true] at ih ⊢
    rw [ih (fun c' h => hset c' (.tail _ h))]
    simp [Mem.setAll, Mem.setPos, tagValue, tagVar]

theorem exec_assignIfAny (env : Env) (ls : List Var) (e : Expr) (m : Mem) :
    exec env (if ls.isEmpty then [] else [.assign ls e]) m = .next (m.assign ls (e.val env m)) := by
  cases ls <;> simp [step, Mem.assign]

theorem exec_genSaveRun (env : Env) (run : List TagCmd) (m : Mem) :
    exec env (genSaveRun false run) m = .next (m.setAll
      ((run.filter negative).map (fun q => (Var.tag q.lhs false, ⟨none, []⟩)) ++
        (run.filter (!negative ·)).map (fun q => (Var.tag q.lhs false, ⟨m.get .cursor, []⟩)))) := by
  rw [genSaveRun, exec_append, exec_assignIfAny, Outcome.bind_next, exec_assignIfAny]
  simp only [Expr.val, Expr.eval, Mem.assign_eq_setAll, List.map_map, Function.comp_def,
    Mem.setAll_append]
  rw [get_setAll_tags _ _ (by simp only [List.mem_map]; rintro _ ⟨q, -, rfl⟩; simp)]

theorem exec_genSaveRun_eq (env : Env) (mt : Int → Bool) (run : List TagCmd)
    (hset : ∀ c ∈ run, c.isset) (hs : ∀ c ∈ run, mt c.lhs = false)
    (hd : (run.map TagCmd.lhs).Nodup) (m : Mem) :
    exec env (genSaveRun false run) m = .next (runCmds env mt run m) := by
  let f := fun c : TagCmd => (tagVar mt c.lhs, (⟨tagValue m (c.history.headD tagverZero), []⟩ : Val))
  have hneg : ∀ q ∈ run.filter negative, f q = (Var.tag q.lhs false, ⟨none, []⟩) := by
    intro q hq
    simp only [List.mem_filter, negative, beq_iff_eq] at hq
    simp only [f, tagVar, tagValue, hs q hq.1, hq.2, beq_self_eq_true, if_true]
  have hpos : ∀ q ∈ run.filter (!negative ·), f q = (Var.tag q.lhs false, ⟨m.get .cursor, []⟩) := by
    intro q hq
    simp only [List.mem_filter, negative, Bool.not_eq_true', beq_eq_false_iff_ne] at hq
    simp only [f, tagVar, tagValue, hs q hq.1, beq_iff_eq, hq.2, if_false]
  have hinj : (run.map f |>.map Prod.fst).Nodup := by
    simpa [f, List.map_map, Function.comp_def] using
      hd.map (f := tagVar mt) fun a b h => (Var.tag.inj h).1
  rw [exec_genSaveRun, runCmds_saves env mt run hset, ← List.map_congr_left hneg,
    ← List.map_congr_left hpos, ← List.map_append]
  exact congrArg _ (Mem.setAll_perm ((List.filter_append_perm negative run).map f).symm hinj m).symm

theorem exec_genTagCmds (env : Env) (generic : Bool) (mt : Int → Bool) (cmds : List TagCmd)
    (hw : WellFormed mt cmds) (m : Mem) :
    exec env (genTagCmds generic mt cmds) m = .next (runCmds env mt cmds m) := by
  induction cmds using genTagCmds.induct generic mt generalizing m with
  | case1 => simp [genTagCmds, runCmds]
  | case2 p ps hcopy ih =>
    have hk := hw.same_kind p (.head _) (iscopy_isset p hcopy)
    rw [genTagCmds, if_pos hcopy, exec_cons]
    simp [step, ih (hw.sublist (.cons _ (.refl _))), runCmds, runCmd, iscopy_isset p hcopy,
      entries_of_iscopy p hcopy, Mem.assign, Expr.val, tagVar, hk]
  | case3 p ps hcopy hadd ih =>
    have hk := hw.same_kind p (.head _) (isadd_isset p hadd)
    have hcp : exec env (if p.lhs ≠ p.rhs then
        [Code.assign [Var.tag p.lhs (mt p.lhs)] (.var (Var.tag p.rhs (mt p.lhs)))] else []) m =
        .next (m.set (tagVar mt p.lhs) ((Expr.var (tagVar mt p.rhs)).val env m)) := by
      by_cases hlr : p.lhs = p.rhs
      · simp [hlr, tagVar, Expr.val]
      · simp [hlr, step, Mem.assign, Expr.val, tagVar, hk]
    rw [genTagCmds, if_neg hcopy, if_pos hadd, exec_append, exec_append, hcp, Outcome.bind_next,
      exec_setTags, Outcome.bind_next, ih (hw.sublist (.cons _ (.refl _)))]
    simp only [runCmds, List.foldl_cons, runCmd, isadd_isset p hadd, Bool.false_eq_true, if_false]
    rfl
  | case4 p ps hcopy hadd hgen ih =>
    have hset := isset_of_not p (by simpa using hcopy) (by simpa using hadd)
    rw [genTagCmds, if_neg hcopy, if_neg hadd, if_pos hgen, exec_cons]
    simp [step, ih (hw.sublist (.cons _ (.refl _))), runCmds, runCmd, hset, tagVar, tagValue,
      negative]
  | case5 p ps hcopy hadd hgen ih =>
    have hset := isset_of_not p (by simpa using hcopy) (by simpa using hadd)
    have hrun : (p :: ps.takeWhile TagCmd.isset).Sublist (p :: ps) :=
      (List.takeWhile_sublist _).cons₂ p
    have hrest : (ps.dropWhile TagCmd.isset).Sublist (p :: ps) := (List.dropWhile_sublist _).cons p
    have hrunset : ∀ c ∈ p :: ps.takeWhile TagCmd.isset, c.isset := by
      intro c hc
      rcases List.mem_cons.mp hc with rfl | hc
      · exact hset
      · exact List.mem_takeWhile_imp hc
    rw [genTagCmds, if_neg hcopy, if_neg hadd, if_neg hgen, exec_append,
      hw.save_stag p (.head _) hset,
      exec_genSaveRun_eq env mt _ hrunset (fun c hc => hw.save_stag c (hrun.subset hc) (hrunset c hc))
        (hw.sublist hrun).lhs_nodup, Outcome.bind_next, ih (hw.sublist hrest)]
    simp only [runCmds, List.foldl_cons]
    rw [← List.foldl_append, List.takeWhile_append_dropWhile]

theorem exec_genSettags (opts : Opts) (dfa : Adfa) (tcid : Tcid) (env : Env) (m : Mem)
    (hold : dfa.oldstyleCtxmarker = false) (hw : WellFormed dfa.mtagvers (dfa.tcpool tcid)) :
    exec env (genSettags opts dfa tcid) m = .next (runCmds env dfa.mtagvers (dfa.tcpool tcid) m) := by
  simp only [genSettags, hold, Bool.and_false, Bool.false_eq_true, if_false]
  exact exec_genTagCmds env _ _ _ hw m

def settagsDfa : Adfa :=
  { (default : Adfa) with
    tcpool := fun t => if t = 1 then [⟨5, 6, [0]⟩, ⟨1, 0, [tagverBottom, 0]⟩, ⟨2, 0, [9, 0]⟩,
      ⟨3, 4, [tagverBottom, 9, 0]⟩] else []
    tcpool_tcid0 := rfl
    mtagvers := fun v => v == 3 || v == 4 }

theorem exec_genSettags_mixed :
    settagsDfa.oldstyleCtxmarker = false ∧ WellFormed settagsDfa.mtagvers (settagsDfa.tcpool 1) ∧
      exec default (genSettags default settagsDfa 1) default =
        .next (runCmds default settagsDfa.mtagvers (settagsDfa.tcpool 1) default) := by
  have hw : WellFormed settagsDfa.mtagvers (settagsDfa.tcpool 1) :=
    ⟨by decide, by decide, by decide⟩
  exact ⟨rfl, hw, exec_genSettags default settagsDfa 1 default default rfl hw⟩

end Re2cCodegen.TagActions
