import BuildInProgress.DrawList
import BuildInProgress.Lib.Run
import BuildInProgress.StepsController
import BuildInProgress.StepMap
import BuildInProgress.StepRows
import BuildInProgress.StepTree
import BuildInProgress.NewStep
import BuildInProgress.StepRuns
import BuildInProgress.RootDestroy
import BuildInProgress.Remix
import BuildInProgress.RemixTree
import BuildInProgress.MediaControllers
import BuildInProgress.ProjectsController
import BuildInProgress.Frame
import BuildInProgress.Privacy
import BuildInProgress.MediaRows
import BuildInProgress.ProjectImages
import BuildInProgress.ProjectPages
import BuildInProgress.Confidentiality
import BuildInProgress.StepAuthorization
import BuildInProgress.StepOwnership
import BuildInProgress.MediaAuthorization
import BuildInProgress.StepPlaces
import BuildInProgress.EditForm
import BuildInProgress.ActivityDeletion
import BuildInProgress.SaveOrdering
import BuildInProgress.CreateRace
import BuildInProgress.StepSorting
import BuildInProgress.Composing
import BuildInProgress.Lib.Chain
import BuildInProgress.Lib.Numbering
import BuildInProgress.RemixImages
import BuildInProgress.ImagePositions
import BuildInProgress.ImageCascade
import BuildInProgress.ImageDeletion
import BuildInProgress.ImageOrigins
import BuildInProgress.ImageRemoval
import BuildInProgress.RepresentativeImages
import BuildInProgress.TaskScheduler
import BuildInProgress.DraftCleanup
import BuildInProgress.ProjectRows
import BuildInProgress.Registrations
import BuildInProgress.Privileges
import BuildInProgress.PublishedRows
import BuildInProgress.PublicProjects
import BuildInProgress.Collections
import BuildInProgress.CollectionFlags
import BuildInProgress.CollectionRequests
import BuildInProgress.PrivateMemberships
import BuildInProgress.ProjectAuthors
import BuildInProgress.RemixLineage
import BuildInProgress.Lib.Exclusive
import BuildInProgress.VillageLinks
import BuildInProgress.Lib.Interleaving
import BuildInProgress.AuthorRaces
import BuildInProgress.EditingSessions
import BuildInProgress.ProjectLog
import BuildInProgress.TimeMachine
import BuildInProgress.DanglingActivities
import BuildInProgress.Favorites
import BuildInProgress.Follows
import BuildInProgress.RemixReading
import BuildInProgress.BuiltFlags
import BuildInProgress.Feeds
import BuildInProgress.Rerooting
import BuildInProgress.PositionRepair
import BuildInProgress.NestedAttributes
import BuildInProgress.StepUpdate
import BuildInProgress.AllOrNothing
import BuildInProgress.PlainForm
import BuildInProgress.RecordTimestamps
import BuildInProgress.PrivacyRefusal
import BuildInProgress.OriginalDeletion
import BuildInProgress.Search
import BuildInProgress.CollectionNames
import BuildInProgress.ProjectUrls
import BuildInProgress.Announcements
import BuildInProgress.Comments
import BuildInProgress.CommentOrder
import BuildInProgress.RemixNotices
import BuildInProgress.Lib.First
import BuildInProgress.StepWithQuestion
import BuildInProgress.ReadAbility
import BuildInProgress.Lib.Calendar
import BuildInProgress.Lib.Strftime
import BuildInProgress.StepDates
import BuildInProgress.ProjectExport
import BuildInProgress.LinearChain
import BuildInProgress.Lib.Lineage
import BuildInProgress.Lib.Cycles
import BuildInProgress.Lib.Preorder
import BuildInProgress.AncestryIntegrity
import BuildInProgress.AncestryRestore
import BuildInProgress.AncestryArrange
import BuildInProgress.AncestryQueries
import BuildInProgress.AncestryMoves
import BuildInProgress.AncestryOrphans
import BuildInProgress.RestoredSteps
import BuildInProgress.Categories
import BuildInProgress.CategoryRaces
import BuildInProgress.Notifications
import BuildInProgress.SignIns
import BuildInProgress.TimeMachineCalendar
import BuildInProgress.Lib.Branching
import BuildInProgress.Branches
import BuildInProgress.Lib.Announcing
import BuildInProgress.EditConflicts
import BuildInProgress.Lib.Script
import BuildInProgress.Lib.Rows
