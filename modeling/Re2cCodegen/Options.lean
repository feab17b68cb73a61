/-! The part of `opt_t` that the second code-generation pass reads. Options that only
change how a statement is rendered (names, prefixes, naked forms) are not kept. -/

namespace Re2cCodegen.Options

inductive Api
  | default
  | custom
  deriving DecidableEq, Repr, Inhabited

inductive ApiStyle
  | functions
  | freeform
  deriving DecidableEq, Repr, Inhabited

inductive CodeModel
  | gotoLabel
  | loopSwitch
  | recFunc
  deriving DecidableEq, Repr, Inhabited

inductive Target
  | code
  | dot
  | skeleton
  deriving DecidableEq, Repr, Inhabited

structure Opts where
  target : Target
  codeModel : CodeModel
  api : Api
  apiStyle : ApiStyle
  fillEnable : Bool
  fillCheck : Bool
  /-- `fill_eof`; `none` is `NOEOF`, the end-of-input rule `$` disabled. -/
  fillEof : Option Nat
  /-- `var_fill` is not empty: the result of `YYFILL` is read from a variable. -/
  varFill : Bool
  storableState : Bool
  startConditions : Bool
  eagerSkip : Bool
  computedGotos : Bool
  computedGotosThreshold : Nat
  nestedIfs : Bool
  stateAbort : Bool
  /-- `state_next`: a label `label_next` follows the `YYGETSTATE` switch. -/
  stateNext : Bool
  labelNext : String
  /-- `label_start`; empty when the user names no start label. -/
  labelStart : String
  /-- `cond_div`, the text put before the code of each condition; empty for none. -/
  condDiv : String
  charEmit : Bool
  condAbort : Bool
  debug : Bool
  condEnumPrefix : String
  /-- `header_file`; empty when no header is generated. -/
  headerFile : String
  deriving DecidableEq, Repr, Inhabited

end Re2cCodegen.Options
