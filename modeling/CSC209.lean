import CSC209.CStrings
import CSC209.HaltingRuns
import CSC209.A4.HelpQueue
import CSC209.A4.HelpCentre
import CSC209.A4.QueueHeap
import CSC209.A4.QueueRefinement
import CSC209.A4.InputBuffer
import CSC209.A4.LineFraming
import CSC209.A4.HelpServer
import CSC209.A4.ServerSteps
import CSC209.A4.ServerInvariant
import CSC209.A4.ClientBookkeeping
import CSC209.A4.DepartedPeers
import CSC209.A4.NameUse
import CSC209.A4.ClientIsolation
import CSC209.A4.QueueCorrespondence
import CSC209.A4.StudentCalling
import CSC209.NodeMemory
import CSC209.A2.HelpDesk
import CSC209.A2.DeskLists
import CSC209.A2.DeskReading
import CSC209.A2.DeskRefinement
import CSC209.A2.DeskHistory
import CSC209.A2.QueueAgreement
import CSC209.A2.DeskStatistics
import CSC209.A2.DeskTimes
import CSC209.A2.ServiceOrder
import CSC209.A3.FreqList
import CSC209.A3.WordList
import CSC209.A3.WordIndex
import CSC209.StreamIO
import CSC209.A3.IndexFiles
import CSC209.A3.IndexedWords
import CSC209.A3.QueryPipes
import CSC209.A3.WorkerAnswers
import CSC209.A3.ResultList
import CSC209.A3.ReadLoop
import CSC209.Lab10.BufServer
import CSC209.A2.TakingStudents
import CSC209.A2.CommandLine
import CSC209.A2.GivingUp
import CSC209.A2.RefusedCommands
import CSC209.A2.CourseConfig
import CSC209.Lab11.ChatServer
import CSC209.QueueBoard
import CSC209.SameQueue
import CSC209.A3.ResultBounds
import CSC209.A1.CheckGroup
import CSC209.A1.Sudoku
import CSC209.A3.AnswerBlock
import CSC209.A3.QueryWords
import CSC209.A3.PuncLoops
import CSC209.A4.StatusReplies
import CSC209.A3.WorkerPaths
import CSC209.A1.MostProcesses
import CSC209.Lab8.Validate
import CSC209.Lab10.RandClient
import CSC209.Lab11.MessageEchoes
import CSC209.A3.Indexer
import CSC209.A3.QueryRuns
import CSC209.A4.Dialogues
import CSC209.CommandLoop
import CSC209.Lab11.ChatTranscripts
import CSC209.A2.Sessions
import CSC209.A3.SearchEngine
import CSC209.A2.ListSessions
import CSC209.A3.QueryEnds
import CSC209.Lab7.ForkLoops
import CSC209.Lab10.RandomLines
import CSC209.Lab11.Conversations
import CSC209.Lab8.PasswordChecks
import CSC209.A3.PrintedIndex
import CSC209.A4.CentreSessions
import CSC209.A4.ServerHistories
import CSC209.Lab5.Bitmap
import CSC209.SameSessions
