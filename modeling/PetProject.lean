import PetProject.Framework.Machine
import PetProject.Framework.Bag
import PetProject.Framework.ChangeLog
import PetProject.Framework.Custody
import PetProject.Framework.Line
import PetProject.Framework.SqlText
import PetProject.Framework.Bytes
import PetProject.Framework.FileSystem
import PetProject.Framework.Pattern
import PetProject.Framework.SimilarTo
import PetProject.Framework.Positions
import PetProject.Framework.Pairing
import PetProject.Framework.Strand
import PetProject.Framework.Writers
import PetProject.Framework.Crowd
import PetProject.Framework.Progress
import PetProject.Framework.DirectoryTree
import PetProject.Framework.PathWalk
import PetProject.Framework.PathOpen
import PetProject.Framework.Blocks
import PetProject.Framework.Ledger
import PetProject.Framework.Columns
import PetProject.Framework.Loop
import PetProject.Framework.InputStream
import PetProject.Framework.Outcome
import PetProject.Database.Tables
import PetProject.Database.Command
import PetProject.Database.Numbering
import PetProject.Database.Insertion
import PetProject.DbModule.ConnectionPool
import PetProject.DbModule.ThreadPool
import PetProject.DbModule.Wakeup
import PetProject.DbModule.TaskHistory
import PetProject.DbModule.ExecCommand
import PetProject.DbModule.Progress
import PetProject.DbModule.PoolLife
import PetProject.Handler.InotifyDbHandler
import PetProject.Handler.ServerHttpHandler
import PetProject.Handler.LogTable
import PetProject.Handler.LogTrim
import PetProject.InotifyModule.Events
import PetProject.InotifyModule.Catalogue
import PetProject.InotifyModule.Rows
import PetProject.InotifyModule.StartUp
import PetProject.Handler.Answers
import PetProject.Handler.Lookup
import PetProject.Handler.RowNumbers
import PetProject.Handler.ServerDirHandler
import PetProject.ServerHttp.HandleRequest
import PetProject.ServerHttp.FileService
import PetProject.ServerHttp.MimeTypes
import PetProject.ServerHttp.SessionLoop
import PetProject.ServerHttp.ServerRun
import PetProject.ClientHttp.TargetLoop
import PetProject.ClientHttp.TargetRounds
import PetProject.ClientHttp.TargetProgress
import PetProject.Logger.OpenFile
import PetProject.DbModule.PgResult
import PetProject.Handler.DirectoryLookup
import PetProject.Handler.FailedLookup
import PetProject.Handler.FailedTrim
import PetProject.InotifyModule.FileNames
import PetProject.InotifyModule.EventBuffer
import PetProject.InotifyModule.Removal
import PetProject.Handler.LogRun
import PetProject.Handler.LogOrder
import PetProject.Handler.NamePattern
import PetProject.ClientHttp.ListParsing
import PetProject.ClientHttp.Downloads
import PetProject.ClientHttp.DownloadPaths
import PetProject.ClientHttp.DownloadDirs
import PetProject.ClientHttp.Messaging
import PetProject.IniParser.ConfigSearching
import PetProject.IniParser.Massives
import PetProject.IniParser.Validation
import PetProject.IniParser.Copies
import PetProject.IniParser.Leaks
import PetProject.IniParser.Settings
import PetProject.DbModule.ResultOwnership
import PetProject.DbModule.ResultContainer
import PetProject.Handler.TableRendering
import PetProject.Handler.FilesTable
import PetProject.Handler.DirectoryErrors
import PetProject.Handler.DirectoryFetch
import PetProject.Logger.LogChoice
import PetProject.Logger.Question
import PetProject.Logger.Restarts
import PetProject.Exchange.Conversation
import PetProject.Exchange.KeepAlive
import PetProject.Exchange.Delivery
import PetProject.Exchange.FolderService
import PetProject.Exchange.ServiceAtRest
import PetProject.ServerHttp.LogStrand
import PetProject.InotifyModule.SetFolder
