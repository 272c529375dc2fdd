import InvariantFs.DeltaHistory
import InvariantFs.RootCrash
import InvariantFs.FoldDrained
import InvariantFs.LinkPrefix
import InvariantFs.RenameCut
import InvariantFs.DedupeKeeps
import InvariantFs.MuxDrain
import InvariantFs.MuxMirror
import InvariantFs.SavePointDrop
import InvariantFs.Migrate
import InvariantFs.ExciseTree
import InvariantFs.TierReads
import InvariantFs.AclEval
import InvariantFs.DeltaRemount
import InvariantFs.CutPrefix
import InvariantFs.TextGc
import InvariantFs.BtreeTolerant
import InvariantFs.OrphanRounds
import InvariantFs.DeltaDoom
import InvariantFs.RenameTree
import InvariantFs.SiblingPurge
import InvariantFs.FoldReadersRun
import InvariantFs.Xattr
import InvariantFs.Anchor
import InvariantFs.DeltaIntact
import InvariantFs.BitmapFlush
import InvariantFs.ZoneHistory
import InvariantFs.FlushGroup
import InvariantFs.ArcCache
import InvariantFs.DevIo
import InvariantFs.Crc32c
import InvariantFs.PngFilter
import InvariantFs.PathNorm
