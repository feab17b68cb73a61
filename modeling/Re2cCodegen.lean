import Re2cCodegen.Options
import Re2cCodegen.Dfa
import Re2cCodegen.Output
import Re2cCodegen.TagActions
import Re2cCodegen.FinalTags
import Re2cCodegen.Transitions
import Re2cCodegen.Conditions
import Re2cCodegen.Dispatch
import Re2cCodegen.Accept
import Re2cCodegen.States
import Re2cCodegen.Layout
import Re2cCodegen.Block
import Re2cCodegen.Reentry
import Re2cCodegen.RecFunc
import Re2cCodegen.Bitmap
import Re2cCodegen.Grammar
import Re2cCodegen.LineSource
import Re2cCodegen.HoistedTags
import Re2cCodegen.Program
import Re2cCodegen.Action
import Re2cCodegen.GroupedRuns
