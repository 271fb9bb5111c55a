import EmbeddedCode.ArraySort.Agreement
import EmbeddedCode.ArraySort.Heap
import EmbeddedCode.ArraySort.Merge
import EmbeddedCode.ArraySort.Quick
import EmbeddedCode.BTree.Keys
import EmbeddedCode.BTree.LevelOrder
import EmbeddedCode.BTree.Measure
import EmbeddedCode.BTree.Mirror
import EmbeddedCode.BTree.Refused
import EmbeddedCode.BTree.Runs
import EmbeddedCode.Buffer.RequestPath
import EmbeddedCode.Calculator.Value
import EmbeddedCode.Cgi.Channel
import EmbeddedCode.Cgi.Wait
import EmbeddedCode.Chat.Registration
import EmbeddedCode.ChunkQueue.Limits
import EmbeddedCode.Conversion.Atoi
import EmbeddedCode.Conversion.Sprintf
import EmbeddedCode.DataArray.Map
import EmbeddedCode.DoubleBuffer.BmpRows
import EmbeddedCode.DoubleBuffer.Frames
import EmbeddedCode.DoubleBuffer.PanDisplay
import EmbeddedCode.Hanoi.Moves
import EmbeddedCode.HashTable.Agreement
import EmbeddedCode.HashTable.Capacity
import EmbeddedCode.HashTable.Repeat
import EmbeddedCode.Hlist.Chains
import EmbeddedCode.HttpServer.Pages
import EmbeddedCode.I2c.Read
import EmbeddedCode.I2c.Touch
import EmbeddedCode.IntrusiveList.Containers
import EmbeddedCode.IntrusiveList.SafeLoops
import EmbeddedCode.Lcd.Text
import EmbeddedCode.Library.LinkedList
import EmbeddedCode.Library.Loop
import EmbeddedCode.Library.Transition
import EmbeddedCode.ListSort.Bubble
import EmbeddedCode.ListSort.Insertion
import EmbeddedCode.ListSort.Selection
import EmbeddedCode.MessageQueue.Printed
import EmbeddedCode.Mmu.Translation
import EmbeddedCode.NodeList.Checked
import EmbeddedCode.PayloadList.Links
import EmbeddedCode.Printk.Canonical
import EmbeddedCode.Printk.Expansion
import EmbeddedCode.RamDisk.History
import EmbeddedCode.RamDisk.Requests
import EmbeddedCode.Search.Binary
import EmbeddedCode.SelectServer.Table
import EmbeddedCode.SelfTest.Reverse
import EmbeddedCode.Semaphore.Counter
import EmbeddedCode.Semaphore.PingPong
import EmbeddedCode.Server.ConfigFields
import EmbeddedCode.Server.Containment
import EmbeddedCode.Server.Descriptors
import EmbeddedCode.Server.Mime
import EmbeddedCode.Server.Signal
import EmbeddedCode.Server.Tokens
import EmbeddedCode.SharedMemory.Pipe
import EmbeddedCode.SinglyLinked.Agreement
import EmbeddedCode.SplayTree.StatCache
import EmbeddedCode.ThreadPool.Progress
import EmbeddedCode.ThreadPool.Shutdown
