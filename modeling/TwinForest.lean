import TwinForest.Change
import TwinForest.Inspection
import TwinForest.Main
import TwinForest.Proofs.AbandonedPairs
import TwinForest.Proofs.Changes
import TwinForest.Proofs.CheckedBuilding
import TwinForest.Proofs.CheckedIndexing
import TwinForest.Proofs.ClassNumbers
import TwinForest.Proofs.CommentLines
import TwinForest.Proofs.Comments
import TwinForest.Proofs.Display
import TwinForest.Proofs.Dump
import TwinForest.Proofs.History
import TwinForest.Proofs.Independence
import TwinForest.Proofs.Intervals
import TwinForest.Proofs.LaterSiblings
import TwinForest.Proofs.Lexemes
import TwinForest.Proofs.LineEndings
import TwinForest.Proofs.Links
import TwinForest.Proofs.ListCalls
import TwinForest.Proofs.Messages
import TwinForest.Proofs.NormalForest
import TwinForest.Proofs.Outcomes
import TwinForest.Proofs.PairCalls
import TwinForest.Proofs.Predecessors
import TwinForest.Proofs.Rebuilding
import TwinForest.Proofs.RootConflicts
import TwinForest.Proofs.RoundTrip
import TwinForest.Proofs.SharedContent
import TwinForest.Proofs.UniqueContent
import TwinForest.Service.Client
import TwinForest.Service.Document
