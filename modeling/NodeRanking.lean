import NodeRanking.Main
import NodeRanking.Session
import NodeRanking.Proofs.ClosenessRange
import NodeRanking.Proofs.Dominance
import NodeRanking.Proofs.Placement
import NodeRanking.Proofs.TopEntry
import NodeRanking.Proofs.Choice
import NodeRanking.Proofs.Attempt
import NodeRanking.Proofs.Reordering
import NodeRanking.Proofs.PowerCurve
import NodeRanking.Proofs.Measuring
import NodeRanking.Proofs.ExtremeRatings
import NodeRanking.Proofs.Bookings
import NodeRanking.Proofs.Spreading
import NodeRanking.Proofs.Projection
import NodeRanking.Proofs.MatrixRange
import NodeRanking.Proofs.PowerOverUsage
import NodeRanking.Proofs.SettingsText
import NodeRanking.Proofs.SettingsSections
import NodeRanking.Proofs.FirstCandidate
import NodeRanking.Proofs.Toml.Proper
import NodeRanking.Proofs.SnapshotText
import NodeRanking.Proofs.Indifference
import NodeRanking.Proofs.Coverage
import NodeRanking.Proofs.Amount
import NodeRanking.Proofs.AmountTexts
import NodeRanking.Proofs.Normalizing
import NodeRanking.Proofs.LargeColumns
import NodeRanking.Proofs.Reversal
import NodeRanking.Proofs.TwoCandidates
import NodeRanking.Proofs.ReportLines
import NodeRanking.Proofs.ScoreRounding
