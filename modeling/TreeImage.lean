import TreeImage.CommandLine.Unpack
import TreeImage.Main
import TreeImage.Proofs.Digest.Streaming
import TreeImage.Proofs.Extract.Account
import TreeImage.Proofs.Extract.Accounting
import TreeImage.Proofs.Extract.Blocking
import TreeImage.Proofs.Extract.Containment
import TreeImage.Proofs.Extract.EntryPaths
import TreeImage.Proofs.Extract.Freezing
import TreeImage.Proofs.Extract.FreshRun
import TreeImage.Proofs.Extract.Idempotence
import TreeImage.Proofs.Extract.Isolation
import TreeImage.Proofs.Extract.Landing
import TreeImage.Proofs.Extract.MakingDirectories
import TreeImage.Proofs.Extract.Parallel
import TreeImage.Proofs.Extract.Refusals
import TreeImage.Proofs.Extract.Standing
import TreeImage.Proofs.Extract.VerifiedWrites
import TreeImage.Proofs.FileSystem.Trees
import TreeImage.Proofs.Image.Cutting
import TreeImage.Proofs.Image.Serving
import TreeImage.Proofs.Manifest.WellFormed
import TreeImage.Proofs.Pack.Determinism
import TreeImage.Proofs.Pack.Exploring
import TreeImage.Proofs.Pack.Ignoring
import TreeImage.Proofs.Pack.Keeping
import TreeImage.Proofs.Pack.RoundTrip
import TreeImage.Proofs.Pack.Validity
import TreeImage.Proofs.Program.Turns
import TreeImage.Proofs.Path.NormalForm
import TreeImage.Proofs.Extract.Resolving
import TreeImage.Proofs.Ignore.Lines
import TreeImage.Proofs.Ignore.Literals
