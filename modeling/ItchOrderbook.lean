import ItchOrderbook.Parser.ItchMessages
import ItchOrderbook.Book.RefMap
import ItchOrderbook.Book.OrderBook
import ItchOrderbook.Book.OrderBookSpec
import ItchOrderbook.Book.BookEngine
import ItchOrderbook.Book.LiveOrders
import ItchOrderbook.Book.EngineSpec
import ItchOrderbook.Book.EngineInvariant
import ItchOrderbook.Book.ReferenceBook
import ItchOrderbook.Book.Refinement
import ItchOrderbook.Book.OrderRefTable
import ItchOrderbook.Lib.LinearProbing
import ItchOrderbook.Book.OrderRefTableSpec
import ItchOrderbook.Lib.VectorLoop
import ItchOrderbook.Trade.FillEngine
import ItchOrderbook.Trade.FillEngineSpec
import ItchOrderbook.Trade.FillRun
import ItchOrderbook.Trade.OrderConservation
import ItchOrderbook.Trade.QueueAhead
import ItchOrderbook.Trade.QueueExact
import ItchOrderbook.Trade.FillBudget
import ItchOrderbook.Trade.RejectedInput
import ItchOrderbook.Trade.FloatOps
import ItchOrderbook.Trade.Program
import ItchOrderbook.Lib.CheckedState
import ItchOrderbook.Lib.StraightLine
import ItchOrderbook.Trade.ProgramSpec
import ItchOrderbook.Trade.BarBuilder
import ItchOrderbook.Trade.DslVm
import ItchOrderbook.Trade.VmSpec
import ItchOrderbook.Trade.StackSafety
import ItchOrderbook.Lib.BigEndian
import ItchOrderbook.Lib.Framing
import ItchOrderbook.Parser.ItchParser
import ItchOrderbook.Parser.ItchParserSpec
import ItchOrderbook.Gui.ItchWriter
import ItchOrderbook.Gui.WireRoundTrip
import ItchOrderbook.Rtl.ItchDecoder
import ItchOrderbook.Sim.ReferenceModel
import ItchOrderbook.Rtl.DecoderAgreement
import ItchOrderbook.Parser.MoldParser
import ItchOrderbook.Parser.MoldParserSpec
import ItchOrderbook.Tools.MoldRoundTrip
import ItchOrderbook.Lib.StreamMachine
import ItchOrderbook.Rtl.MoldStripper
import ItchOrderbook.Rtl.MoldStripperSpec
import ItchOrderbook.Rtl.MoldDelivery
import ItchOrderbook.Rtl.DecapAgreement
import ItchOrderbook.Rtl.ItchFramer
import ItchOrderbook.Rtl.FramerSpec
import ItchOrderbook.Rtl.FramerDelivery
import ItchOrderbook.Lib.TreeMapEnds
import ItchOrderbook.Sim.ReferenceSpec
import ItchOrderbook.Stats.StatsEngine
import ItchOrderbook.Stats.FinalState
import ItchOrderbook.Rtl.BestTracker
import ItchOrderbook.Rtl.BookUpdateEngine
import ItchOrderbook.Rtl.StatsEngine
import ItchOrderbook.Lib.Settling
import ItchOrderbook.Lib.TombstoneProbing
import ItchOrderbook.Rtl.OrderRefTableSpec
import ItchOrderbook.Rtl.BookCore
import ItchOrderbook.Rtl.EngineRun
import ItchOrderbook.Rtl.LevelTotals
import ItchOrderbook.Rtl.DepthReferences
import ItchOrderbook.Rtl.TableMap
import ItchOrderbook.Rtl.InsertAnswers
import ItchOrderbook.Book.EraseTermination
import ItchOrderbook.Book.VectorProbe
import ItchOrderbook.Lib.ExactReader
import ItchOrderbook.Lib.LittleEndian
import ItchOrderbook.Trade.ProgramLayout
import ItchOrderbook.Trade.ProgramGrammar
import ItchOrderbook.Replay.MainReplay
import ItchOrderbook.Replay.MainReplaySpec
import ItchOrderbook.Trade.OrderManager
import ItchOrderbook.Trade.OrderManagerSpec
import ItchOrderbook.Trade.OrderManagerCalls
import ItchOrderbook.Trade.SessionRun
import ItchOrderbook.Lib.PreambleHunt
import ItchOrderbook.Rtl.UartBridge
import ItchOrderbook.Rtl.UartBridgeSpec
import ItchOrderbook.Tools.ObHost
import ItchOrderbook.Rtl.UartBridgeRun
import ItchOrderbook.Tools.ObHostSpec
import ItchOrderbook.Tools.LinkRoundTrip
import ItchOrderbook.Tools.LinkCorruption
import ItchOrderbook.Rtl.InsertWindow
import ItchOrderbook.Book.VectorScan
import ItchOrderbook.Parser.MoldAccounting
import ItchOrderbook.Gui.NasdaqItch
import ItchOrderbook.Gui.NativeConversion
import ItchOrderbook.Trade.BarAggregation
import ItchOrderbook.Lib.RingBuffer
import ItchOrderbook.Trade.WindowAgreement
import ItchOrderbook.Trade.WindowRun
import ItchOrderbook.Rtl.UdpDelivery
import ItchOrderbook.Book.ThinnedReplay
import ItchOrderbook.Tools.BandFilter
import ItchOrderbook.Tools.BandFilterSpec
import ItchOrderbook.Rtl.BestLevel
import ItchOrderbook.Rtl.PriceBand
import ItchOrderbook.Rtl.ReferenceMirror
import ItchOrderbook.Rtl.ReferenceAgreement
import ItchOrderbook.Util.SpscDelivery
import ItchOrderbook.Receiver.PacketDelivery
import ItchOrderbook.Gui.DamagedRecords
import ItchOrderbook.Rtl.SerialEngines
import ItchOrderbook.Rtl.SerialLoopback
import ItchOrderbook.Util.ItchGen
import ItchOrderbook.Util.ItchGenWire
import ItchOrderbook.Util.ItchGenEffect
import ItchOrderbook.Util.ItchGenMirror
import ItchOrderbook.Util.CleanStreams
import ItchOrderbook.Lib.Drawdown
import ItchOrderbook.Trade.TradingSession
import ItchOrderbook.Trade.SignalSinks
import ItchOrderbook.Trade.TradingRun
import ItchOrderbook.Trade.TradingSpec
import ItchOrderbook.Lib.StreamChain
import ItchOrderbook.Rtl.PerfCounters
import ItchOrderbook.Rtl.OrderbookTop
import ItchOrderbook.Rtl.TopUnits
import ItchOrderbook.Rtl.TopDelivery
import ItchOrderbook.Rtl.TopReference
import ItchOrderbook.Rtl.TopCounts
import ItchOrderbook.Rtl.FpgaTop
import ItchOrderbook.Rtl.FpgaDelivery
import ItchOrderbook.Tools.HostToBook
import ItchOrderbook.Sim.RtlDriver
import ItchOrderbook.Sim.TbTop
