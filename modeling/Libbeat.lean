import Libbeat.Memqueue.Producer
import Libbeat.Memqueue.Broker
import Libbeat.Memqueue.ProducerIDs
import Libbeat.Memqueue.EntryIDs
import Libbeat.Memqueue.Progress
import Libbeat.Memqueue.Order
import Libbeat.Memqueue.Ring
import Libbeat.Memqueue.Cancel
import Libbeat.Memqueue.Answers
import Libbeat.Diskqueue.NewQueue
import Libbeat.Diskqueue.Reconcile
import Libbeat.Sys.Strings
import Libbeat.Wineventlog.Offset
