import Pakstak.Lib.Prog
import Pakstak.Lib.FileTree
import Pakstak.Lib.Posix
import Pakstak.Lib.Text
import Pakstak.Lib.Places
import Pakstak.Lib.Overlay
import Pakstak.Lib.Access
import Pakstak.Lib.Reader
import Pakstak.Lib.Pool
import Pakstak.Digest
import Pakstak.Manifest
import Pakstak.Reference
import Pakstak.ReferenceText
import Pakstak.World
import Pakstak.Storage
import Pakstak.Layer
import Pakstak.StorageMutable
import Pakstak.Auth
import Pakstak.Challenges
import Pakstak.Fetch
import Pakstak.Commands
import Pakstak.Prune
import Pakstak.Run
import Pakstak.Calls
import Pakstak.Registry
import Pakstak.Replay
import Pakstak.Tokens
import Pakstak.Pinned
import Pakstak.Temporary
import Pakstak.Extraction
import Pakstak.View
import Pakstak.Atomic
import Pakstak.Contents
import Pakstak.Opened
import Pakstak.Readers
import Pakstak.Operations
import Pakstak.Removals
import Pakstak.Fetching
import Pakstak.Sites
import Pakstak.Installing
import Pakstak.Updating
import Pakstak.Outcomes
import Pakstak.Uninstalling
import Pakstak.Surveying
import Pakstak.Pruning
import Pakstak.Pruned
import Pakstak.Whiteouts
import Pakstak.Conversion
import Pakstak.Footprint
import Pakstak.Changeset
import Pakstak.Stacking
import Pakstak.Mounts
import Pakstak.Permissions
import Pakstak.Clearing
import Pakstak.Pieces
import Pakstak.Streaming
import Pakstak.Crash
import Pakstak.Kills
import Pakstak.Histories
import Pakstak.Running
import Pakstak.Repairing
import Pakstak.Interleaving
import Pakstak.Offline
import Pakstak.Traffic
import Pakstak.EndToEnd
import Pakstak.Bystanders
import Pakstak.Following
import Pakstak.Reclaiming
import Pakstak.Asking
