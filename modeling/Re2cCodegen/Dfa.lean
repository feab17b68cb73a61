/-! The input of the second pass: a tunnelled DFA with its tags, the tag-command pool
and the transition trees built by the first pass. States are addressed by id. -/

namespace Re2cCodegen.Dfa

abbrev StateId := Nat

/-- Index into the tag-command pool `tcpool`. -/
abbrev Tcid := Nat

def tcid0 : Tcid := 0

/-- Modelled from the spec: `TAGVER_ZERO`, the terminator of a history array. -/
def tagverZero : Int := 0

/-- Modelled from the spec: `TAGVER_BOTTOM`, a history element meaning "no match". -/
def tagverBottom : Int := -2147483648

/-- A tag command: the history array is kept as laid out in memory, terminator included. -/
structure TagCmd where
  lhs : Int
  rhs : Int
  history : List Int
  deriving DecidableEq, Repr

namespace TagCmd

/-- Modelled from the spec: `tcmd_t::isset`, a save command. -/
def isset (c : TagCmd) : Bool := c.rhs == tagverZero

/-- Modelled from the spec: `tcmd_t::iscopy`, a copy command (empty history). -/
def iscopy (c : TagCmd) : Bool :=
  c.rhs != tagverZero && c.history.headD tagverZero == tagverZero

/-- Modelled from the spec: `tcmd_t::isadd`, a save command with history. -/
def isadd (c : TagCmd) : Bool :=
  c.rhs != tagverZero && c.history.headD tagverZero != tagverZero

def entries (c : TagCmd) : List Int := c.history.takeWhile (· != tagverZero)

end TagCmd

structure Tag where
  name : String
  lsub : Nat
  hsub : Nat
  /-- `none` is `Tag::RIGHTMOST`: a fixed tag based on the cursor. -/
  base : Option Nat
  dist : Nat
  fictive : Bool
  trailing : Bool
  capture : Bool
  fixed : Bool
  history : Bool
  toplevel : Bool
  deriving DecidableEq, Repr, Inhabited

structure SemAct where
  cond : Option String
  autogen : Bool
  text : String
  deriving DecidableEq, Repr, Inhabited

structure Rule where
  ltag : Nat
  htag : Nat
  ncap : Nat
  semact : SemAct
  deriving DecidableEq, Repr, Inhabited

structure Label where
  index : Nat
  used : Bool
  deriving DecidableEq, Repr, Inhabited

structure AcceptTrans where
  state : StateId
  tags : Tcid
  deriving DecidableEq, Repr, Inhabited

inductive Action
  | «match»
  | initial (save : Option Nat)
  | save (save : Nat)
  | move
  | accept (accepts : List AcceptTrans)
  | rule (rule : Nat)
  deriving DecidableEq, Repr, Inhabited

structure Span where
  ub : Nat
  dest : StateId
  deriving DecidableEq, Repr, Inhabited

structure CodeJump where
  dest : StateId
  tags : Tcid
  skip : Bool
  elide : Bool
  eof : Bool
  deriving DecidableEq, Repr, Inhabited

inductive Cmp
  | lt
  | le
  | eq
  | ne
  | ge
  | gt
  deriving DecidableEq, Repr, Inhabited

def Cmp.holds : Cmp → Option Int → Option Int → Bool
  | .eq, a, b => a == b
  | .ne, a, b => a != b
  | .lt, some a, some b => decide (a < b)
  | .le, some a, some b => decide (a ≤ b)
  | .ge, some a, some b => decide (b ≤ a)
  | .gt, some a, some b => decide (b < a)
  | _, _, _ => false

structure CodeCmp where
  cmp : Cmp
  val : Nat
  deriving DecidableEq, Repr, Inhabited

structure Branch where
  cond : Option CodeCmp
  jump : CodeJump
  deriving DecidableEq, Repr, Inhabited

inductive CodeGoIf
  | binary (cond : CodeCmp) (gothen goelse : CodeGoIf)
  | linear (branches : List Branch)
  deriving Repr, Inhabited

/-- A switch case over half-open character ranges `[lo, hi)`. -/
structure CodeGoCase where
  ranges : List (Nat × Nat)
  jump : CodeJump
  deriving DecidableEq, Repr, Inhabited

structure CodeGoSw where
  cases : List CodeGoCase
  defcase : Nat
  deriving DecidableEq, Repr, Inhabited

inductive CodeGoSwIf
  | switch (gosw : CodeGoSw)
  | ifs (goif : CodeGoIf)
  deriving Repr, Inhabited

structure CodeGoBm where
  state : StateId
  offset : Nat
  mask : Nat
  hgo : Option CodeGoSwIf
  lgo : Option CodeGoSwIf
  deriving Repr, Inhabited

structure CodeGoCp where
  table : List StateId
  hgo : Option CodeGoSwIf
  deriving Repr, Inhabited

inductive GoKind
  | dot (godot : CodeGoSw)
  | switchIf (goswif : CodeGoSwIf)
  | bitmap (gobm : CodeGoBm)
  | cpgoto (gocp : CodeGoCp)
  deriving Repr, Inhabited

structure CodeGo where
  kind : GoKind
  span : List Span
  tags : Tcid
  skip : Bool
  deriving Repr, Inhabited

structure State where
  label : Label
  action : Action
  go : CodeGo
  fill : Nat
  /-- Index of the fill label; `none` is a null `fill_label`. -/
  fillLabel : Option Nat
  fillState : StateId
  deriving Repr, Inhabited

structure Adfa where
  state : StateId → State
  /-- The state list `head`, `head->next`, ... -/
  states : List StateId
  tcpool : Tcid → List TagCmd
  tcpool_tcid0 : tcpool tcid0 = []
  tags : Nat → Tag
  finvers : Nat → Int
  rules : Nat → Rule
  mtagvers : Int → Bool
  oldstyleCtxmarker : Bool
  /-- `accepts.size()` -/
  accepts : Nat
  initialLabel : Label
  cond : String
  setup : String
  /-- `fallback_state_with_eof_rule`: the fallback state and its tags, computed before
  this pass. -/
  fallback : StateId → StateId × Tcid

instance : Inhabited Adfa :=
  ⟨{ state := fun _ => default, states := [], tcpool := fun _ => [], tcpool_tcid0 := rfl,
     tags := fun _ => default, finvers := fun _ => 0, rules := fun _ => default,
     mtagvers := fun _ => false, oldstyleCtxmarker := false, accepts := 0,
     initialLabel := default, cond := "", setup := "", fallback := fun s => (s, tcid0) }⟩

namespace Adfa

variable (dfa : Adfa)

def label (s : StateId) : Label := (dfa.state s).label

def go (s : StateId) : CodeGo := (dfa.state s).go

def action (s : StateId) : Action := (dfa.state s).action

end Adfa

end Re2cCodegen.Dfa
