import OutOfOrder.Main
import OutOfOrder.Page.Screen
import OutOfOrder.Proofs.Progress
import OutOfOrder.Proofs.WrongPath.Traceless
import OutOfOrder.Station.Printer
import OutOfOrder.Proofs.Histories
import OutOfOrder.Proofs.Faults
import OutOfOrder.Proofs.Tags
import OutOfOrder.Proofs.WrongPath.Checkpoint
import OutOfOrder.Proofs.Inputs
import OutOfOrder.Proofs.AccessOrder
import OutOfOrder.Proofs.Targets
import OutOfOrder.Proofs.Renumbering.Pools
import OutOfOrder.Proofs.Flags
import OutOfOrder.Proofs.Timing
import OutOfOrder.Proofs.Ranges
import OutOfOrder.Proofs.Arbitration
import OutOfOrder.Proofs.Departure
import OutOfOrder.Proofs.Resolutions
import OutOfOrder.Proofs.BranchCounts
import OutOfOrder.Proofs.Completion
import OutOfOrder.Proofs.Page.SetUps
import OutOfOrder.Proofs.PoolMaking
import OutOfOrder.Proofs.TimingRows
import OutOfOrder.Proofs.Stations.Fields
import OutOfOrder.Proofs.TwosComplement
import OutOfOrder.Proofs.RegisterUses
