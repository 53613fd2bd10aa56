import Ka10Simh.B5500.Arith.Divide
import Ka10Simh.B5500.Arith.Multiply
import Ka10Simh.B5500.Bounds
import Ka10Simh.B5500.CharMode.Convert
import Ka10Simh.B5500.Characters
import Ka10Simh.B5500.Interrupt
import Ka10Simh.Ibm360.Channel.Bounds
import Ka10Simh.Ibm360.Channel.Store
import Ka10Simh.Ibm360.Decimal.Add
import Ka10Simh.Ibm360.Decimal.Convert
import Ka10Simh.Ibm360.Decimal.Divide
import Ka10Simh.Ibm360.Decimal.Shift
import Ka10Simh.Ibm360.FixedDivide
import Ka10Simh.Ibm360.LoadReal
import Ka10Simh.Ibm360.MoveLong
import Ka10Simh.Ibm360.StorageToStorage
import Ka10Simh.Ibm360.Tlb
import Ka10Simh.Imp.Ftp
import Ka10Simh.Imp.Resolve
import Ka10Simh.Imp.Translate
import Ka10Simh.Lib.Bits
import Ka10Simh.Lib.Image
import Ka10Simh.Lib.Iterate
import Ka10Simh.Lib.Observe
import Ka10Simh.Lib.Reaches
import Ka10Simh.Pdp10.Access.Ki
import Ka10Simh.Pdp10.Access.Waits
import Ka10Simh.Pdp10.Arith.Ash
import Ka10Simh.Pdp10.Arith.Double
import Ka10Simh.Pdp10.Arith.Multiply
import Ka10Simh.Pdp10.Arith.Rotate
import Ka10Simh.Pdp10.Blt
import Ka10Simh.Pdp10.Byte.Transfer
import Ka10Simh.Pdp10.ChannelErrors
import Ka10Simh.Pdp10.DataChannel
import Ka10Simh.Pdp10.Disk
import Ka10Simh.Pdp10.Extend.Convert
import Ka10Simh.Pdp10.Float.Commute
import Ka10Simh.Pdp10.Float.Deliver
import Ka10Simh.Pdp10.Float.Fix
import Ka10Simh.Pdp10.Interrupt.Bus
import Ka10Simh.Pdp10.Interrupt.MainLoop
import Ka10Simh.Pdp10.Pager.Bounds
import Ka10Simh.Pdp10.Pager.ConsoleBytes
import Ka10Simh.Pdp10.Pager.Halting
import Ka10Simh.Pdp10.Pager.Lookup
import Ka10Simh.Pdp10.Pager.Status
import Ka10Simh.Pdp10.Rp.Attention
import Ka10Simh.Pdp10.Rp.Rh10
import Ka10Simh.Sel32.Agreement
import Ka10Simh.Sel32.Divide
import Ka10Simh.Sel32.Float.Convert
import Ka10Simh.Sel32.Float.Divide
import Ka10Simh.Sel32.Float.Multiply
import Ka10Simh.B5500.Arith.Compare
import Ka10Simh.B5500.Arith.DoubleAdd
import Ka10Simh.B5500.Arith.DoubleMultiply
import Ka10Simh.B5500.Arith.DoubleDivide
import Ka10Simh.B5500.Arith.Integer
import Ka10Simh.B5500.BitFields
import Ka10Simh.B5500.Branch
import Ka10Simh.B5500.CharMode.FieldAdd
import Ka10Simh.B5500.CharMode.Loops
import Ka10Simh.Pdp10.Tape
import Ka10Simh.Pdp10.Uba
import Ka10Simh.Card.Safety
