import Vyakarana.Choice.Program
import Vyakarana.Derivation.PatternRule
import Vyakarana.Main
import Vyakarana.Proofs.Choice.Choices
import Vyakarana.Proofs.Choice.Exploration
import Vyakarana.Proofs.Choice.DecisionTree
import Vyakarana.Proofs.Choice.Completeness
import Vyakarana.Proofs.Choice.Traversal
import Vyakarana.Proofs.Choice.Visits
import Vyakarana.Proofs.Derivation.Frame
import Vyakarana.Proofs.Derivation.Retelling
import Vyakarana.Proofs.Derivation.Disguise
import Vyakarana.Proofs.Derivation.Consultation
import Vyakarana.Proofs.Derivation.Spoken
import Vyakarana.Proofs.Sound.Nearest
import Vyakarana.Proofs.Sound.ClassNotation
import Vyakarana.Proofs.Sound.ClassOrder
import Vyakarana.Proofs.Sound.FirstNearest
import Vyakarana.Proofs.Grammar.ConsonantRules
import Vyakarana.Proofs.Grammar.FinalSandhi
import Vyakarana.Proofs.Grammar.VowelSandhi
import Vyakarana.Proofs.Grammar.AugmentVrddhi
import Vyakarana.Proofs.Grammar.Markers
import Vyakarana.Proofs.Grammar.Suffixes
import Vyakarana.Proofs.Grammar.Conjugation
import Vyakarana.Proofs.Grammar.VowelPattern
import Vyakarana.Proofs.Grammar.Trace
import Vyakarana.Proofs.Grammar.CopyShape
import Vyakarana.Proofs.Grammar.Joining
import Vyakarana.Proofs.Grammar.SoundsOnly
import Vyakarana.Proofs.Grammar.NasalContact
import Vyakarana.Proofs.Grammar.WellFormed
import Vyakarana.Proofs.Grammar.Ledger
import Vyakarana.Proofs.Grammar.PadaChoice
import Vyakarana.Proofs.Grammar.Disguise
import Vyakarana.Proofs.Grammar.Consultation
import Vyakarana.Proofs.Grammar.Recording
import Vyakarana.Proofs.Grammar.Replay
import Vyakarana.Proofs.Grammar.RootNumber
import Vyakarana.Proofs.Grammar.Indifference
import Vyakarana.Proofs.Grammar.Notation
import Vyakarana.Proofs.Grammar.SpokenForms
import Vyakarana.Proofs.Grammar.VowelsAtRest
import Vyakarana.Proofs.Grammar.MarkerFaults
import Vyakarana.Proofs.Grammar.MarkerAccount
import Vyakarana.Proofs.Grammar.Contraction
import Vyakarana.Proofs.Grammar.Reapplication
import Vyakarana.Proofs.Derivation.Owners
import Vyakarana.Proofs.Derivation.Calls
import Vyakarana.Proofs.RootTable
import Vyakarana.Proofs.Derivation.Search
import Vyakarana.Proofs.Sound.Distance
import Vyakarana.Proofs.Grammar.RootInitial
import Vyakarana.Proofs.Grammar.Guna
