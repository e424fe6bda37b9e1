import ArmLink.Main
import ArmLink.Proofs.Arm.Direction
import ArmLink.Proofs.Arm.Extension
import ArmLink.Proofs.Arm.ProgramCounter
import ArmLink.Proofs.Arm.Skipping
import ArmLink.Proofs.Dynamic.Hash
import ArmLink.Proofs.Dynamic.Names
import ArmLink.Proofs.Dynamic.Tabulated
import ArmLink.Proofs.Image.Mapping
import ArmLink.Proofs.Link.DeadDefinitions
import ArmLink.Proofs.Link.Distances
import ArmLink.Proofs.Link.HostRecords
import ArmLink.Proofs.Link.Imports
import ArmLink.Proofs.Link.Limits
import ArmLink.Proofs.Link.RawRelocations
import ArmLink.Proofs.Link.Stubs
import ArmLink.Proofs.Link.Variables
import ArmLink.Proofs.Object.Sites
import ArmLink.Proofs.Options
import ArmLink.Proofs.Resolve.Fit
import ArmLink.Proofs.Resolve.Moved
import ArmLink.Proofs.SymbolTable.Bounds
import ArmLink.Proofs.SymbolTable.Hygiene
