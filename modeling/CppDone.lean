import CppDone.Lib.Machine
import CppDone.Lib.CondVar
import CppDone.Lib.Cells
import CppDone.Lib.Best
import CppDone.Lib.Lines
import CppDone.Lib.Upsert
import CppDone.Lib.FileSystem
import CppDone.Lib.Deleted
import CppDone.Lib.Agenda
import CppDone.Lib.Program
import CppDone.Lib.Numerals
import CppDone.Lib.Smallest
import CppDone.Lib.Product
import CppDone.Lib.Simulation
import CppDone.Lib.SharedMutex
import CppDone.Lib.Progress
import CppDone.Lib.Sections
import CppDone.Lib.Protocol
import CppDone.Lib.Log
import CppDone.ConcurrentMap.Bucket
import CppDone.ConcurrentMap.Map
import CppDone.ConcurrentMap.Plain
import CppDone.ConcurrentMap.Refine
import CppDone.ConcurrentMap.Clients
import CppDone.ConcurrentMap.Linear
import CppDone.ConcurrentMap.Body
import CppDone.ConcurrentMap.Locks
import CppDone.ConcurrentMap.Best
import CppDone.ConcurrentMap.Traversal
import CppDone.ConcurrentMap.Erasure
import CppDone.HttpClient.Cookie
import CppDone.HttpClient.CookieRoundTrip
import CppDone.HttpClient.CookieFile
import CppDone.HttpClient.CookieStore
import CppDone.HttpClient.ThreadPool
import CppDone.HttpClient.PoolTasks
import CppDone.HttpClient.PoolThreads
import CppDone.HttpClient.PoolWakeups
import CppDone.HttpClient.Restart
import CppDone.HttpClient.PoolStops
import CppDone.HttpClient.PoolDrains
import CppDone.HttpClient.PoolProducers
import CppDone.HttpClient.Client
import CppDone.HttpClient.Shutdown
import CppDone.HttpClient.Transfer
import CppDone.HttpClient.Outcome
import CppDone.HttpClient.Upload
import CppDone.HttpClient.Responses
import CppDone.HttpClient.Handles
import CppDone.HttpClient.Cleanup
import CppDone.HttpClient.LateCalls
import CppDone.HttpClient.Destructor
import CppDone.Netlink.Monitor
import CppDone.Netlink.Delivery
import CppDone.Netlink.Fresh
import CppDone.Netlink.Limit
import CppDone.Netlink.Lifecycle
import CppDone.Netlink.Handshake
import CppDone.Netlink.Callbacks
import CppDone.Netlink.Removal
import CppDone.Netlink.Dispatch
import CppDone.Netlink.Settles
import CppDone.SingleInstance.Pid
import CppDone.SingleInstance.Processes
import CppDone.SingleInstance.Exclusion
import CppDone.SingleInstance.Admission
import CppDone.SingleInstance.Starts
import CppDone.SingleInstance.Undisturbed
import CppDone.Timer.Queue
import CppDone.Timer.Ticks
import CppDone.Timer.Discard
import CppDone.Timer.Transitions
import CppDone.Timer.Table
import CppDone.Timer.Calls
import CppDone.Timer.Readings
import CppDone.Timer.Alive
import CppDone.Timer.Stops
import CppDone.Timer.OnTime
import CppDone.WorkThread.Cancel
import CppDone.WorkThread.Cursor
import CppDone.WorkThread.Drains
import CppDone.WorkThread.Loop
import CppDone.WorkThread.Order
import CppDone.WorkThread.Pool
import CppDone.WorkThread.Wakeups
import CppDone.CrashHandler.Directory
import CppDone.CrashHandler.CrashFiles
import CppDone.CrashHandler.Limit
