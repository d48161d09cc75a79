import LinearPattern.Byte.Class
import LinearPattern.Byte.Mask
import LinearPattern.Byte.Visible
import LinearPattern.Fault
import LinearPattern.Log.Event
import LinearPattern.Log.Hops
import LinearPattern.Log.Matcher
import LinearPattern.Match.Encoded
import LinearPattern.Match.Hop
import LinearPattern.Match.Report
import LinearPattern.Match.Run
import LinearPattern.Match.Verdict
import LinearPattern.Matcher.Basic
import LinearPattern.Matcher.Sequence
import LinearPattern.Op
import LinearPattern.Pattern.ByteSet
import LinearPattern.Pattern.Extent
import LinearPattern.Pattern.Literal
import LinearPattern.Pattern.Structure
import LinearPattern.Session
import LinearPattern.Proofs.Extent
import LinearPattern.Proofs.Fence
import LinearPattern.Proofs.DeadBytes
import LinearPattern.Proofs.Frames
import LinearPattern.Proofs.Machine
import LinearPattern.Proofs.Structure
import LinearPattern.Proofs.Hop
import LinearPattern.Proofs.Item
import LinearPattern.Proofs.BlockEnd
import LinearPattern.Proofs.Nesting
import LinearPattern.Proofs.Origin
import LinearPattern.Proofs.PlainScan
import LinearPattern.Proofs.ByteSet
import LinearPattern.Proofs.Verdict
import LinearPattern.Proofs.MoreData
import LinearPattern.Proofs.Resume
import LinearPattern.Proofs.Budget
import LinearPattern.Proofs.Shift
import LinearPattern.Proofs.Tree.Basic
import LinearPattern.Proofs.Tree.Eval
import LinearPattern.Proofs.Tree.Refinement
import LinearPattern.Proofs.Indexed.ByteSet
import LinearPattern.Proofs.Indexed.Hop
import LinearPattern.Proofs.Indexed.Run
import LinearPattern.Proofs.Indexed.Match
import LinearPattern.Proofs.Sequence
import LinearPattern.Proofs.Members
import LinearPattern.Proofs.Literal
import LinearPattern.Proofs.InnerBlock
import LinearPattern.Proofs.Mismatch
import LinearPattern.Proofs.Boundary
import LinearPattern.Proofs.Repetition
import LinearPattern.Proofs.Grammar
import LinearPattern.Proofs.Token
import LinearPattern.Proofs.FirstFault
import LinearPattern.Proofs.Alike
import LinearPattern.Proofs.LongerRun
import LinearPattern.Proofs.Enclosed
import LinearPattern.Proofs.DataEnd
import LinearPattern.Proofs.Brackets
import LinearPattern.Proofs.SetEnd
import LinearPattern.Proofs.Report
import LinearPattern.Proofs.Packed
