import ProjectGraph.Generator
import ProjectGraph.ObjectId.Digest
import ProjectGraph.Project.Damage
import ProjectGraph.Proofs.FileTree.Exclusion
import ProjectGraph.Proofs.FileTree.Visible
import ProjectGraph.Proofs.Operations.FrameworkNames
import ProjectGraph.Proofs.Runs.Acceptance
import ProjectGraph.Proofs.Runs.Again
import ProjectGraph.Proofs.Runs.Clash
import ProjectGraph.Proofs.Runs.Closure
import ProjectGraph.Proofs.Runs.Comments
import ProjectGraph.Proofs.Runs.Commuting
import ProjectGraph.Proofs.Runs.CopyScript
import ProjectGraph.Proofs.Runs.Directories
import ProjectGraph.Proofs.Runs.Filing
import ProjectGraph.Proofs.Runs.LaunchSettings
import ProjectGraph.Proofs.Runs.Names
import ProjectGraph.Proofs.Runs.NewFiles
import ProjectGraph.Proofs.Runs.NewProjects
import ProjectGraph.Proofs.Runs.Owners
import ProjectGraph.Proofs.Runs.Partition
import ProjectGraph.Proofs.Runs.PhaseOrder
import ProjectGraph.Proofs.Runs.Products
import ProjectGraph.Proofs.Runs.Recovery
import ProjectGraph.Proofs.Runs.Schemes
import ProjectGraph.Proofs.Runs.Settings
import ProjectGraph.Proofs.Runs.SingleOwner
import ProjectGraph.Proofs.Runs.Slots
import ProjectGraph.Proofs.Runs.SourceFiles
import ProjectGraph.Proofs.Runs.Spared
import ProjectGraph.Proofs.Runs.Split
import ProjectGraph.Proofs.Settings.ByKey
import ProjectGraph.Proofs.Indifferent.Basic
import ProjectGraph.Proofs.Indifferent.Operations
import ProjectGraph.Proofs.Indifferent.Builds
import ProjectGraph.Proofs.Settings.Reordered
import ProjectGraph.Proofs.Builds.Reordered
import ProjectGraph.Proofs.Runs.Reordered
