import TecnicoFs.Interleaving.Safe
import TecnicoFs.Fs.Calls
import TecnicoFs.Concurrent.Safety
import TecnicoFs.Concurrent.Deadlock
import TecnicoFs.Concurrent.Printing
import TecnicoFs.Sequential.Refinement
import TecnicoFs.Sequential.Moves
import TecnicoFs.Sequential.Creation
import TecnicoFs.Sequential.Serial
import TecnicoFs.Command.Codec
import TecnicoFs.Command.Mount
import TecnicoFs.Path.Equality
import TecnicoFs.Path.Splitting
import TecnicoFs.Inode.Map
import TecnicoFs.Sequential.Listing
import TecnicoFs.Sequential.Edits
import TecnicoFs.Sequential.Spelling
import TecnicoFs.Command.Input
import TecnicoFs.Server.Progress
import TecnicoFs.Server.Idle
import TecnicoFs.Server.Moves
import TecnicoFs.Server.OneWorker
import TecnicoFs.Server.Scripts
import TecnicoFs.Server.Searches
import TecnicoFs.Server.Apart
import TecnicoFs.Server.Snapshots
import TecnicoFs.Server.Races
import TecnicoFs.Server.Answers
import TecnicoFs.Command.Lines
