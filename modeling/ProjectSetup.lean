import ProjectSetup.Main
import ProjectSetup.Proofs.AppliedTwice
import ProjectSetup.Proofs.BelowRoot
import ProjectSetup.Proofs.CallOffsets
import ProjectSetup.Proofs.ComposedEdits
import ProjectSetup.Proofs.ConfigModule.Commas
import ProjectSetup.Proofs.ConfigModule.Comments
import ProjectSetup.Proofs.ConfigModule.Saved
import ProjectSetup.Proofs.EntryScript
import ProjectSetup.Proofs.History
import ProjectSetup.Proofs.MergedExtension
import ProjectSetup.Proofs.OptionsFile
import ProjectSetup.Proofs.OwnKey
import ProjectSetup.Proofs.PageLinks
import ProjectSetup.Proofs.PassFrame
import ProjectSetup.Proofs.PluginModule
import ProjectSetup.Proofs.Rerun
import ProjectSetup.Proofs.SecondPass
import ProjectSetup.Proofs.TypeScript
