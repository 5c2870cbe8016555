import Zmax.Core.ApplyDiff
import Zmax.Core.CaseCycle
import Zmax.Core.Coords
import Zmax.Core.Folds
import Zmax.Core.LastEdit
import Zmax.Core.Proofs.Args
import Zmax.Core.Proofs.DeletedRanges
import Zmax.Core.Proofs.EnrichedTrip
import Zmax.Core.Proofs.ExpandRegion
import Zmax.Core.Proofs.FoldMerge
import Zmax.Core.Proofs.Hebrew
import Zmax.Core.Proofs.IcalFold
import Zmax.Core.Proofs.IcalImport
import Zmax.Core.Proofs.Increment
import Zmax.Core.Proofs.Mailbox
import Zmax.Core.Proofs.Overlapping
import Zmax.Core.Proofs.Persian
import Zmax.Core.Proofs.Printing
import Zmax.Core.Proofs.Quoting
import Zmax.Core.Proofs.Reconcile
import Zmax.Core.Proofs.Rendering
import Zmax.Core.Proofs.SetAlgebra
import Zmax.Core.Proofs.SoftWrap
import Zmax.Core.Proofs.TableWrap
import Zmax.Core.Proofs.Untangled
import Zmax.Core.RegionOps
import Zmax.Core.Snapshot
import Zmax.Loader
import Zmax.Lsp.DidChange
import Zmax.Lsp.Proofs.Edits
import Zmax.Stdx.Proofs.Range
import Zmax.Term.Proofs.KeymapMerge
import Zmax.Term.Proofs.MergeConflicts
import Zmax.Term.Proofs.MergeDiff3
import Zmax.Term.Proofs.MergeUnified
import Zmax.Term.Proofs.ParenText
import Zmax.Term.Proofs.ShadaFile
import Zmax.Term.Proofs.ShadaMerge
import Zmax.Tui.Proofs.BufferDiff
import Zmax.Tui.Proofs.SetString
import Zmax.Vcs.Diff
import Zmax.View.Encoding
import Zmax.View.Glob
import Zmax.View.Input
import Zmax.View.JumpList
import Zmax.View.Proofs.GrowTo
import Zmax.View.Proofs.Register
import Zmax.View.Proofs.Selections
import Zmax.View.Proofs.Sync
import Zmax.View.Proofs.TreeLaw
import Zmax.View.Proofs.WordHook
import Zmax.View.Proofs.WordWindows
import Zmax.View.Reload
import Zmax.View.SavePoints
