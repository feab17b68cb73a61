import Mathlib.Data.List.Nodup
import Mathlib.Logic.Function.Basic
import Re2cCodegen.Dfa

/-! The code tree built by the second pass and the meaning of the generated code. A
statement list runs on a memory of program variables and either falls out of its end or
transfers control: a `goto`, a `continue` of the `yystate` loop, or a tail call. -/

namespace Re2cCodegen.Output

open Re2cCodegen.Dfa

inductive Slot
  | named (name : String)
  | pmatch (i : Nat)
  | nmatch
  deriving DecidableEq, Repr

/-- Program variables. Names are kept structured: `tag v m` is what `vartag_expr` names for
version `v` (an m-tag variable when `m`), `fin s` what `fintag_expr` names for slot `s`. -/
inductive Var
  | tag (ver : Int) (mtag : Bool)
  | fin (slot : Slot)
  | cursor
  | marker
  | ctxmarker
  | yych
  | yyaccept
  | fill
  | yystate
  deriving DecidableEq, Repr

inductive Expr
  | var (v : Var)
  | null
  | num (n : Int)
  | minus (e : Expr) (k : Int)
  | getState
  | getCond
  | enumElem (name : String)
  deriving DecidableEq, Repr

inductive Cond
  | cmp (op : Cmp) (a b : Expr)
  | lessThan (n : Nat)
  | fill
  | fillVar
  | bitmap (offset mask : Nat)
  | wide
  deriving DecidableEq, Repr

inductive Lbl
  | num (n : Nat)
  | fill (n : Nat)
  | cond (name : String)
  | user (name : String)
  deriving DecidableEq, Repr

inductive Fn
  | state (n : Nat)
  | cond (name : String)
  /-- The lexer function `fn->name` that the user calls. -/
  | entry
  deriving DecidableEq, Repr

inductive Table
  | yytarget
  | yyctable
  deriving DecidableEq, Repr

inductive CaseLbl
  | number (n : Int)
  | ranges (rs : List (Int × Int))
  | string (name : String)
  | dflt
  deriving DecidableEq, Repr

/-- Statements. `cont next` is the pair `yystate = next; continue` that
`gen_continue_yyloop` appends; `branches` is the IF/ELSE-IF/.../ELSE of rec/func mode. -/
inductive Code
  | assign (lhs : List Var) (rhs : Expr)
  | sub (lhs : Var) (k : Int)
  | setTag (negative history : Bool) (tag : Var)
  | shift (tag : Option Var) (history : Bool) (k : Int)
  | restoreCtx (tag : Option Var)
  | backupCtx
  | skip
  | peek
  | backup
  | restore
  | fill
  | stateSet (e : Expr)
  | condSet (e : Expr)
  | debug (state : Nat)
  | text (s : String)
  | ifte (c : Cond) (t e : List Code)
  | branches (bs : List (Option Cond × List Code))
  | goto (l : Lbl)
  | array (t : Table) (elems : List Lbl)
  | gotoTable (t : Table) (idx : Expr)
  | cont (next : Expr)
  | tailcall (f : Fn) (yych : Bool)
  | abort
  | switch (e : Expr) (cases : List (CaseLbl × List Code))
  | label (l : Lbl)
  | block (b : List Code)
  | loop (b : List Code)
  deriving Repr

structure Val where
  pos : Option Int
  hist : List (Option Int)
  deriving DecidableEq, Repr

inductive Event
  | fill
  | debug (state : Nat)
  | text (s : String)
  deriving DecidableEq, Repr

structure Mem where
  vars : Var → Val
  tables : Table → List Lbl
  /-- The storage behind `YYGETSTATE` / `YYSETSTATE`. -/
  state : Option Int
  /-- The storage behind `YYGETCONDITION` / `YYSETCONDITION`. -/
  cond : Option Int
  trace : List Event

instance : Inhabited Mem := ⟨⟨fun _ => ⟨none, []⟩, fun _ => [], none, none, []⟩⟩

/-- What the generated code reads from outside: the less-than test, the result of
`YYFILL`, the input under a position, the values of the condition enumerators, and the
elements of the bitmap table `yybm`. -/
structure Env where
  lessThan : Nat → Bool
  fillOk : Bool
  input : Int → Int
  enumVal : String → Int
  yybm : Nat → Nat

instance : Inhabited Env := ⟨⟨fun _ => false, false, fun _ => 0, fun _ => 0, fun _ => 0⟩⟩

inductive Exit
  | goto (l : Lbl)
  | cont (next : Option Int)
  | call (f : Fn)
  | abort
  | undefined
  deriving DecidableEq, Repr

inductive Outcome
  | next (m : Mem)
  | jump (m : Mem) (e : Exit)

namespace Outcome

def mem : Outcome → Mem
  | .next m => m
  | .jump m _ => m

def bind : Outcome → (Mem → Outcome) → Outcome
  | .next m, k => k m
  | o, _ => o

@[simp] theorem bind_next (m : Mem) (k : Mem → Outcome) : (next m).bind k = k m := rfl

@[simp] theorem bind_jump (m : Mem) (e : Exit) (k : Mem → Outcome) :
    (jump m e).bind k = jump m e := rfl

@[simp] theorem bind_next' (o : Outcome) : o.bind next = o := by
  cases o <;> rfl

theorem bind_assoc (o : Outcome) (k k' : Mem → Outcome) :
    (o.bind k).bind k' = o.bind (fun m => (k m).bind k') := by
  cases o <;> rfl

def isJump : Outcome → Bool
  | .next _ => false
  | .jump _ _ => true

theorem bind_of_isJump {o : Outcome} (h : o.isJump) (k : Mem → Outcome) : o.bind k = o := by
  cases o
  · cases h
  · rfl

theorem isJump_bind (o : Outcome) {k : Mem → Outcome} (h : ∀ m, (k m).isJump) :
    (o.bind k).isJump := by
  cases o
  · exact h _
  · rfl

end Outcome

namespace Mem

def get (m : Mem) (v : Var) : Option Int := (m.vars v).pos

def set (m : Mem) (v : Var) (x : Val) : Mem := { m with vars := Function.update m.vars v x }

def setPos (m : Mem) (v : Var) (p : Option Int) : Mem := m.set v ⟨p, []⟩

def push (m : Mem) (v : Var) (p : Option Int) : Mem :=
  m.set v { m.vars v with hist := (m.vars v).hist ++ [p] }

def shift (m : Mem) (v : Var) (k : Int) : Mem :=
  m.set v { m.vars v with pos := (m.get v).map (· + k) }

def shiftLast (m : Mem) (v : Var) (k : Int) : Mem :=
  m.set v { m.vars v with
    hist := (m.vars v).hist.dropLast ++ ((m.vars v).hist.getLast?.map (·.map (· + k))).toList }

/-- A multiple assignment `l1 = l2 = ... = x`. -/
def assign (m : Mem) (ls : List Var) (x : Val) : Mem := ls.foldl (fun m l => m.set l x) m

def emit (m : Mem) (e : Event) : Mem := { m with trace := m.trace ++ [e] }

/-- After a call of `YYFILL` that succeeded or not; its result is left in `var_fill`. -/
def afterFill (m : Mem) (ok : Bool) : Mem := (m.emit .fill).setPos .fill (some (if ok then 1 else 0))

def setAll (m : Mem) (l : List (Var × Val)) : Mem := l.foldl (fun m p => m.set p.1 p.2) m

@[simp] theorem vars_set (m : Mem) (v : Var) (x : Val) :
    (m.set v x).vars = Function.update m.vars v x := rfl

@[simp] theorem get_set (m : Mem) (v w : Var) (x : Val) :
    (m.set v x).get w = if w = v then x.pos else m.get w := by
  by_cases h : w = v <;> simp [get, set, h]

@[simp] theorem set_other (m : Mem) (v : Var) (x : Val) :
    (m.set v x).state = m.state ∧ (m.set v x).cond = m.cond ∧ (m.set v x).trace = m.trace ∧
      (m.set v x).tables = m.tables := ⟨rfl, rfl, rfl, rfl⟩

theorem set_comm (m : Mem) {v w : Var} (x y : Val) (h : v ≠ w) :
    (m.set v x).set w y = (m.set w y).set v x := by
  simp only [set, Function.update_comm h]

@[simp] theorem set_self (m : Mem) (v : Var) : m.set v (m.vars v) = m := by
  simp [set]

@[simp] theorem setAll_append (m : Mem) (a b : List (Var × Val)) :
    m.setAll (a ++ b) = (m.setAll a).setAll b := List.foldl_append _ _ _ _

theorem assign_eq_setAll (m : Mem) (ls : List Var) (x : Val) :
    m.assign ls x = m.setAll (ls.map (·, x)) := by
  induction ls generalizing m with
  | nil => rfl
  | cons l ls ih => exact ih _

theorem setAll_perm {l l' : List (Var × Val)} (p : l.Perm l') (hd : (l.map Prod.fst).Nodup)
    (m : Mem) : m.setAll l = m.setAll l' := by
  refine p.foldl_eq' (fun x hx y hy z => ?_) m
  by_cases hxy : x.1 = y.1
  · rw [List.inj_on_of_nodup_map hd hx hy hxy]
  · exact set_comm z x.2 y.2 hxy

end Mem

def Expr.eval (env : Env) (m : Mem) : Expr → Option Int
  | .var v => m.get v
  | .null => none
  | .num n => some n
  | .minus e k => (e.eval env m).map (· - k)
  | .getState => m.state
  | .getCond => m.cond
  | .enumElem c => some (env.enumVal c)

def Expr.val (env : Env) (m : Mem) : Expr → Val
  | .var (.tag v k) => m.vars (.tag v k)
  | e => ⟨e.eval env m, []⟩

/-- A condition's truth and the memory after it: `YYFILL() == 0` calls `YYFILL`. -/
def Cond.eval (env : Env) : Cond → Mem → Bool × Mem
  | .cmp op a b, m => (op.holds (a.eval env m) (b.eval env m), m)
  | .lessThan n, m => (env.lessThan n, m)
  | .fill, m => (env.fillOk, m.afterFill env.fillOk)
  | .fillVar, m => (m.get .fill == some 1, m)
  | .bitmap off mask, m => ((m.get .yych).any fun c => env.yybm (off + c.toNat) &&& mask != 0, m)
  | .wide, m => ((m.get .yych).any fun c => decide (c < 0 ∨ 256 ≤ c), m)

def CaseLbl.hits (env : Env) (v : Option Int) : CaseLbl → Bool
  | .number n => v == some n
  | .ranges rs => match v with
    | some x => rs.any fun r => decide (r.1 ≤ x ∧ x < r.2)
    | none => false
  | .string s => v == some (env.enumVal s)
  | .dflt => false

def tableExit (ls : List Lbl) : Option Int → Exit
  | some k => if 0 ≤ k then ((ls.get? k.toNat).map Exit.goto).getD .undefined else .undefined
  | none => .undefined

mutual

def exec (env : Env) : List Code → Mem → Outcome
  | [], m => .next m
  | c :: cs, m => match step env c m with
    | .next m' => exec env cs m'
    | o => o

def step (env : Env) : Code → Mem → Outcome
  | .assign ls e, m => .next (m.assign ls (e.val env m))
  | .sub v k, m => .next (m.shift v (-k))
  | .setTag neg h v, m =>
    let x := if neg then none else m.get .cursor
    .next (if h then m.push v x else m.setPos v x)
  | .shift none _ k, m => .next (m.shift .cursor k)
  | .shift (some v) h k, m => .next (if h then m.shiftLast v k else m.shift v k)
  | .restoreCtx none, m => .next (m.setPos .cursor (m.get .ctxmarker))
  | .restoreCtx (some v), m => .next (m.setPos .cursor (m.get v))
  | .backupCtx, m => .next (m.setPos .ctxmarker (m.get .cursor))
  | .skip, m => .next (m.shift .cursor 1)
  | .peek, m => .next (m.setPos .yych ((m.get .cursor).map env.input))
  | .backup, m => .next (m.setPos .marker (m.get .cursor))
  | .restore, m => .next (m.setPos .cursor (m.get .marker))
  | .fill, m => .next (m.afterFill env.fillOk)
  | .stateSet e, m => .next { m with state := e.eval env m }
  | .condSet e, m => .next { m with cond := e.eval env m }
  | .debug n, m => .next (m.emit (.debug n))
  | .text s, m => .next (m.emit (.text s))
  | .ifte c t e, m =>
    let r := c.eval env m
    if r.1 then exec env t r.2 else exec env e r.2
  | .branches bs, m => execBranches env bs m
  | .goto l, m => .jump m (.goto l)
  | .array t ls, m => .next { m with tables := Function.update m.tables t ls }
  | .gotoTable t i, m => .jump m (tableExit (m.tables t) (i.eval env m))
  | .cont e, m => .jump m (.cont (e.eval env m))
  | .tailcall f _, m => .jump m (.call f)
  | .abort, m => .jump m .abort
  | .switch e cs, m => match execCases env (e.eval env m) cs m with
    | (some o, _) => o
    | (none, some o) => o
    | (none, none) => .next m
  | .label _, m => .next m
  | .block b, m => exec env b m
  | .loop b, m => exec env b m

def execBranches (env : Env) : List (Option Cond × List Code) → Mem → Outcome
  | [], m => .next m
  | b :: bs, m => match execBranch env b m with
    | .inl m' => execBranches env bs m'
    | .inr o => o

def execBranch (env : Env) : Option Cond × List Code → Mem → Mem ⊕ Outcome
  | (none, body), m => .inr (exec env body m)
  | (some c, body), m =>
    let r := c.eval env m
    if r.1 then .inr (exec env body r.2) else .inl r.2

def execCases (env : Env) (v : Option Int) :
    List (CaseLbl × List Code) → Mem → Option Outcome × Option Outcome
  | [], _ => (none, none)
  | c :: cs, m =>
    let a := execCase env v c m
    let r := execCases env v cs m
    (a.1 <|> r.1, a.2 <|> r.2)

def execCase (env : Env) (v : Option Int) :
    CaseLbl × List Code → Mem → Option Outcome × Option Outcome
  | (l, body), m =>
    let o := exec env body m
    (if l.hits env v then some o else none, if l = .dflt then some o else none)

end

def ifLeaves : List Code → List (List Code)
  | [.ifte _ t e] => ifLeaves t ++ ifLeaves e
  | cs => [cs]

theorem ifLeaves_of_ne (cs : List Code) (h : ∀ c t e, cs ≠ [.ifte c t e]) : ifLeaves cs = [cs] := by
  unfold ifLeaves
  split
  · exact absurd rfl (h _ _ _)
  · rfl

def Mem.dropTables (m : Mem) : Mem := { m with tables := fun _ => [] }

def Outcome.dropTables : Outcome → Outcome
  | .next m => .next m.dropTables
  | .jump m e => .jump m.dropTables e

def Code.straight : Code → Bool
  | .assign .. | .sub .. | .setTag .. | .shift .. | .restoreCtx _ | .backupCtx | .skip | .peek
  | .backup | .restore | .fill | .stateSet _ | .condSet _ | .debug _ | .text _ | .array .. | .label _ =>
    true
  | _ => false

def Code.labelOk (p : Lbl → Bool) : Code → Bool
  | .label l => p l
  | _ => true

@[simp] theorem Code.labelOk_label (p : Lbl → Bool) (l : Lbl) : (Code.label l).labelOk p = p l := rfl

def Expr.readsYych : Expr → Bool
  | .var v => v == .yych
  | .minus e _ => e.readsYych
  | _ => false

def Cond.readsYych : Cond → Bool
  | .cmp _ a b => a.readsYych || b.readsYych
  | .bitmap .. | .wide => true
  | _ => false

def Code.isPeek : Code → Bool
  | .peek => true
  | _ => false

@[simp] theorem exec_nil_eq (env : Env) : exec env [] = Outcome.next := rfl

@[simp] theorem exec_nil (env : Env) (m : Mem) : exec env [] m = .next m := rfl

@[simp] theorem exec_cons (env : Env) (c : Code) (cs : List Code) (m : Mem) :
    exec env (c :: cs) m = (step env c m).bind (exec env cs) := by
  rw [exec]
  cases step env c m <;> rfl

@[simp] theorem exec_append (env : Env) (a b : List Code) (m : Mem) :
    exec env (a ++ b) m = (exec env a m).bind (exec env b) := by
  induction a generalizing m with
  | nil => rfl
  | cons c cs ih =>
    simp only [List.cons_append, exec_cons, Outcome.bind_assoc]
    congr 1
    funext m'
    exact ih m'

theorem execCases_fst (env : Env) (v : Option Int) (cs : List (CaseLbl × List Code)) (m : Mem) :
    (execCases env v cs m).1 = (cs.find? (·.1.hits env v)).map fun c => exec env c.2 m := by
  induction cs with
  | nil => rfl
  | cons c cs ih =>
    obtain ⟨l, body⟩ := c
    cases h : l.hits env v <;> simp [execCases, execCase, List.find?_cons, h, ih]

theorem execCases_snd (env : Env) (v : Option Int) (cs : List (CaseLbl × List Code)) (m : Mem) :
    (execCases env v cs m).2 = (cs.find? (·.1 = .dflt)).map fun c => exec env c.2 m := by
  induction cs with
  | nil => rfl
  | cons c cs ih =>
    obtain ⟨l, body⟩ := c
    by_cases h : l = .dflt <;> simp [execCases, execCase, List.find?_cons, h, ih]

theorem step_switch (env : Env) (e : Expr) (cs : List (CaseLbl × List Code)) (m : Mem) :
    step env (.switch e cs) m =
      match cs.find? (·.1.hits env (e.eval env m)), cs.find? (·.1 = .dflt) with
      | some c, _ => exec env c.2 m
      | none, some c => exec env c.2 m
      | none, none => .next m := by
  simp only [step]
  rw [show execCases env (e.eval env m) cs m = (_, _) from
    Prod.ext (execCases_fst env _ cs m) (execCases_snd env _ cs m)]
  cases cs.find? (·.1.hits env (e.eval env m)) <;> cases cs.find? (·.1 = .dflt) <;> rfl

theorem find?_eq_of_nodup_map {α β : Type} {l : List α} {f : α → β} (hn : (l.map f).Nodup)
    {x : α} (hx : x ∈ l) {p : α → Bool} (hp : ∀ y ∈ l, p y = true ↔ f y = f x) :
    l.find? p = some x := by
  obtain ⟨y, hy⟩ := Option.isSome_iff_exists.1 (List.find?_isSome.2 ⟨x, hx, (hp x hx).2 rfl⟩)
  have hyl := List.mem_of_find?_eq_some hy
  rw [hy, List.inj_on_of_nodup_map hn hyl hx ((hp y hyl).1 (List.find?_some hy))]

theorem find?_append_cons {α : Type} {p : α → Bool} {l₁ l₂ : List α} {x : α}
    (h₁ : ∀ y ∈ l₁, p y = false) (hx : p x = true) : (l₁ ++ x :: l₂).find? p = some x := by
  rw [List.find?_append, List.find?_eq_none.2 (by simpa using h₁), Option.none_or,
    List.find?_cons_of_pos _ hx]

theorem headD_mem {α : Type} {l : List α} (h : l ≠ []) (d : α) : l.headD d ∈ l := by
  obtain ⟨s, t, rfl⟩ := List.exists_cons_of_ne_nil h
  exact List.mem_cons_self _ _

theorem find?_hits_number (env : Env) {l : List (CaseLbl × List Code)} (hn : (l.map (·.1)).Nodup)
    (hnum : ∀ c ∈ l, ∃ k : Nat, c.1 = .number k) {x : CaseLbl × List Code} (hx : x ∈ l) {v : Int}
    (hv : x.1 = .number v) : l.find? (·.1.hits env (some v)) = some x :=
  find?_eq_of_nodup_map hn hx fun y hy => by
    obtain ⟨k, hk⟩ := hnum y hy
    simp only [hk, hv, CaseLbl.hits, beq_iff_eq, Option.some.injEq, CaseLbl.number.injEq]
    exact eq_comm

theorem step_straight (env : Env) (c : Code) (h : c.straight = true) (m : Mem) :
    step env c m = .next (step env c m).mem := by
  cases c <;> first | (cases h; done) | rfl | (rename_i o _ _; cases o <;> rfl) |
    (rename_i o; cases o <;> rfl)

theorem exec_straight (env : Env) (cs : List Code) (h : ∀ c ∈ cs, c.straight = true) (m : Mem) :
    exec env cs m = .next (exec env cs m).mem := by
  induction cs generalizing m with
  | nil => rfl
  | cons c cs ih =>
    rw [exec_cons, step_straight env c (h c (.head _)), Outcome.bind_next]
    exact ih (fun c hc => h c (.tail _ hc)) _

def AllExits (env : Env) (P : Exit → Prop) (cs : List Code) : Prop :=
  ∀ m m' e, exec env cs m = .jump m' e → P e

namespace AllExits

variable {env : Env} {P : Exit → Prop}

theorem nil : AllExits env P [] := fun _ _ _ h => by cases h

theorem of_straight {cs : List Code} (h : ∀ c ∈ cs, c.straight = true) : AllExits env P cs :=
  fun m _ _ he => by rw [exec_straight env cs h m] at he; cases he

theorem append {a b : List Code} (ha : AllExits env P a) (hb : AllExits env P b) :
    AllExits env P (a ++ b) := by
  intro m m' e he
  rw [exec_append] at he
  cases hx : exec env a m with
  | next m1 => rw [hx] at he; exact hb m1 m' e he
  | jump m1 e1 =>
    rw [hx, Outcome.bind_jump, Outcome.jump.injEq] at he
    exact he.2 ▸ ha m m1 e1 hx

theorem ifte {c : Cond} {t f : List Code} (ht : AllExits env P t) (hf : AllExits env P f) :
    AllExits env P [.ifte c t f] := by
  intro m m' e he
  rw [exec_cons, exec_nil_eq, Outcome.bind_next'] at he
  simp only [step] at he
  split at he
  · exact ht _ _ _ he
  · exact hf _ _ _ he

theorem single {c : Code} (h : ∀ m m' e, step env c m = .jump m' e → P e) : AllExits env P [c] := by
  intro m m' e he
  rw [exec_cons, exec_nil_eq, Outcome.bind_next'] at he
  exact h m m' e he

theorem mono {Q : Exit → Prop} {cs : List Code} (hPQ : ∀ e, P e → Q e) (h : AllExits env P cs) :
    AllExits env Q cs :=
  fun m m' e he => hPQ e (h m m' e he)

end AllExits

end Re2cCodegen.Output
