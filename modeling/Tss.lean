import Tss.Basic
import Tss.Rewind
import Tss.Record
import Tss.Linearize
import Tss.Progress
import Tss.Refinement
import Tss.Rubicon
import Tss.Commit
import Tss.Lifecycle
import Tss.DbHeader
