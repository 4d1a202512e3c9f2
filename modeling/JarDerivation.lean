import JarDerivation.Project
import JarDerivation.Files.Listing
import JarDerivation.Proofs.Registry.BreadthFirst
import JarDerivation.Proofs.Registry.Calls
import JarDerivation.Proofs.Registry.ShortestPath
import JarDerivation.Proofs.Registry.DirectEdge
import JarDerivation.Proofs.Registry.Freshness
import JarDerivation.Proofs.Mapping.ClassIndex
import JarDerivation.Proofs.Mapping.TreeSession
import JarDerivation.Proofs.Mapping.Cells
import JarDerivation.Proofs.Mapping.Writes
import JarDerivation.Proofs.Mapping.Nesting
import JarDerivation.Proofs.Mapping.ClassJoin
import JarDerivation.Proofs.Mapping.DescribedMembers
import JarDerivation.Proofs.Mapping.SourceColumn
import JarDerivation.Proofs.Remap.Node
import JarDerivation.Proofs.Remap.Hops
import JarDerivation.Proofs.Files.Written
import JarDerivation.Proofs.Jar.Entries
import JarDerivation.Proofs.Jar.Leftover
import JarDerivation.Proofs.Mapping.RepeatedBuild
import JarDerivation.Proofs.Remap.Jar
import JarDerivation.Proofs.Remap.ThereAndBack
import JarDerivation.Proofs.Widener.Lockstep
import JarDerivation.Proofs.Artifact.Place
import JarDerivation.Proofs.Artifact.Components
import JarDerivation.Proofs.Pipeline.Transparency
import JarDerivation.Proofs.Mapping.UniqueNames
import JarDerivation.Proofs.Mapping.SingleFile
import JarDerivation.Proofs.Mapping.JoinOrder
import JarDerivation.Proofs.Mapping.Independent
import JarDerivation.Proofs.Project.DevArtifact
import JarDerivation.Proofs.Pipeline.Standalone
import JarDerivation.Proofs.Class.Document
import JarDerivation.Proofs.Class.Truncation
import JarDerivation.Proofs.Mapping.Exported
import JarDerivation.Proofs.Widener.Printed
import JarDerivation.Proofs.Merge.Jar
import JarDerivation.Proofs.Mapping.SharedNesting
import JarDerivation.Proofs.Mapping.JoinFrame
import JarDerivation.Proofs.Stage.Protocol
import JarDerivation.Proofs.Pipeline.Provided
import JarDerivation.Proofs.Mapping.NestingTurns
import JarDerivation.Proofs.Mapping.MissingNames
import JarDerivation.Proofs.Mapping.InheritedMethods
import JarDerivation.Proofs.Merge.Class
import JarDerivation.Proofs.Widener.InForce
import JarDerivation.Proofs.Widener.Jar
import JarDerivation.Proofs.Remap.Asking
import JarDerivation.Proofs.Text.Lines
import JarDerivation.Proofs.Text.Lenient
import JarDerivation.Proofs.Merge.Globs
import JarDerivation.Proofs.Jar.Manifest
import JarDerivation.Proofs.Jar.Digests
import JarDerivation.Proofs.Patcher.Overlay
import JarDerivation.Proofs.Patcher.Patches
import JarDerivation.Proofs.Mapping.MemberKeys
