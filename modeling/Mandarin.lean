import Mandarin.CallConv.Grouping
import Mandarin.CallConv.Locations
import Mandarin.CallConv.Coverage
import Mandarin.CallConv.Lowering
import Mandarin.CallConv.StackArea
import Mandarin.Lib.Memory
import Mandarin.CallConv.Overlap
import Mandarin.CallConv.Positions
import Mandarin.CallConv.Agreement
import Mandarin.CallConv.CallSite
import Mandarin.CallConv.RoundTrip
import Mandarin.Branch.Analyze
import Mandarin.Branch.Rewrite
import Mandarin.Frame.FrameLowering
import Mandarin.Frame.CallTree
import Mandarin.Frame.FrameIndex
import Mandarin.Frame.Survival
import Mandarin.Frame.Clobber
import Mandarin.Frame.Spill
import Mandarin.Lib.Simulation
import Mandarin.Select.Function
import Mandarin.Select.Semantics
import Mandarin.Select.Expansion
import Mandarin.Select.WellFormed
import Mandarin.Select.Preservation
import Mandarin.Frame.Activation
import Mandarin.Isel.Arithmetic
import Mandarin.Isel.Immediate
import Mandarin.Isel.Lowering
import Mandarin.Branch.Insertion
import Mandarin.Isel.Conditions
import Mandarin.CallConv.LocalObjects
import Mandarin.CallConv.Returns
import Mandarin.Print.Labels
import Mandarin.Encoding.Formats
import Mandarin.Encoding.Instructions
import Mandarin.Encoding.Shapes
import Mandarin.Encoding.Words
import Mandarin.Encoding.Collisions
import Mandarin.CallConv.RegisterCopy
import Mandarin.Frame.CallFrame
import Mandarin.Frame.Immediates
import Mandarin.Print.ConstantPool
import Mandarin.CallConv.AllOrNothing
import Mandarin.Isel.Coverage
import Mandarin.Branch.Relayout
import Mandarin.Print.Assembly
import Mandarin.Isel.MaskedBits
import Mandarin.Lib.Area
import Mandarin.CallConv.VarArgs
import Mandarin.Lib.Schedule
import Mandarin.CallConv.CallNodes
import Mandarin.CallConv.CallSchedule
import Mandarin.CallConv.CallRun
import Mandarin.CallConv.ReturnSchedule
import Mandarin.Frame.Elimination
import Mandarin.Frame.Entry
import Mandarin.Print.Relaid
import Mandarin.Encoding.Texts
import Mandarin.Frame.Subroutine
import Mandarin.Frame.WholeCall
