import ZipForensic.Cli.Commands
import ZipForensic.Core.AesServes
import ZipForensic.Core.AuthenticatedEnds
import ZipForensic.Core.BufferedMembers
import ZipForensic.Core.CheckpointSpacing
import ZipForensic.Core.CleanEnds
import ZipForensic.Core.DirectoryCodec
import ZipForensic.Core.IncrementalUpdate
import ZipForensic.Core.IndexCaps
import ZipForensic.Core.InflateFeed
import ZipForensic.Core.RandomAccess
import ZipForensic.Core.StrongBounds
import ZipForensic.Core.Timestamps
import ZipForensic.Core.Zip64
import ZipForensic.Forensic.Amplification
import ZipForensic.Forensic.BurstErrors
import ZipForensic.Forensic.CleanArchives
import ZipForensic.Forensic.Disjointness
import ZipForensic.Forensic.HeaderAliasing
