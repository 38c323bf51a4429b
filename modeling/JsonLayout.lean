import JsonLayout.Main
import JsonLayout.Proofs.Diff.Canonical
import JsonLayout.Proofs.Json.FirstFault
import JsonLayout.Proofs.Json.Positions
import JsonLayout.Proofs.Run.Check
import JsonLayout.Proofs.Run.Failing
import JsonLayout.Proofs.Json.Pieces
import JsonLayout.Proofs.Json.Spacing
import JsonLayout.Proofs.Json.Alternatives
import JsonLayout.Proofs.Disk.Leading
import JsonLayout.Proofs.Glob.Parts
import JsonLayout.Proofs.Glob.Walking
import JsonLayout.Proofs.Run.Matches
import JsonLayout.Proofs.Json.Decoding
import JsonLayout.Proofs.Json.Padding
import JsonLayout.Proofs.Json.Nesting
import JsonLayout.Proofs.Command.Status
import JsonLayout.Proofs.Disk.Order
import JsonLayout.Proofs.Glob.Entries
import JsonLayout.Proofs.Glob.Order
import JsonLayout.Proofs.Run.Handled
import JsonLayout.Proofs.Run.Order
import JsonLayout.Proofs.Glob.Ways
import JsonLayout.Proofs.Glob.Counting
import JsonLayout.Proofs.Run.Repeats
