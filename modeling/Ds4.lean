import Ds4.Server.JsonGrammar
import Ds4.Server.LiveTail
import Ds4.Server.GenerateJob
import Ds4.Server.GlmRoundTrip
import Ds4.Server.StopList
import Ds4.Server.Reasoning
import Ds4.Server.Scheduler
import Ds4.Server.AnthropicBlocks
import Ds4.Server.AnthropicGlm
import Ds4.Server.ToolRoundTrip
import Ds4.Server.DecodeBatch
import Ds4.Server.ToolMap
import Ds4.Kv.Consistent
import Ds4.Engine.SpeculateRun
import Ds4.Engine.SyncSession
import Ds4.Dist.Route
import Ds4.Dist.WorkCodec
import Ds4.Dist.WorkerPrefix
import Ds4.Dist.ResultOrder
import Ds4.Dist.PrefillRuns
import Ds4.Dist.Recover
import Ds4.Tp.CommandCodec
import Ds4.Agent.Compact
import Ds4.Engine.EvalBatch
import Ds4.Payload.LoadCpu
import Ds4.Engine.LayerPack
import Ds4.Agent.Edit
import Ds4.Agent.PromptPrefix
import Ds4.Server.ImageCache
import Ds4.Agent.TerminalText
import Ds4.Server.PrefillSlices
import Ds4.Server.Http
import Ds4.Server.ToolFragments
import Ds4.Server.JsonTree
import Ds4.Server.InvokeText
import Ds4.Server.Repair
import Ds4.Lib.ProbeTable
import Ds4.Tokenizer.Alphabet
import Ds4.Tokenizer.Bpe
import Ds4.Tokenizer.Split
import Ds4.Tokenizer.Chat
import Ds4.Agent.TailCapture
import Ds4.Sampling.Argmax
import Ds4.Agent.EditReport
import Ds4.Lib.TextLines
import Ds4.Agent.Buf
import Ds4.Agent.Search
import Ds4.Lib.Regex
import Ds4.Tokenizer.Characters
import Ds4.Tokenizer.Glm4Pattern
import Ds4.Tokenizer.Glm4Pieces
import Ds4.Tokenizer.JoyaiStep
import Ds4.Tokenizer.JoyaiPattern
import Ds4.Tokenizer.JoyaiPieces
import Ds4.Agent.BashJob
import Ds4.Agent.BashCapture
import Ds4.Agent.Read
import Ds4.Agent.ReadMore
import Ds4.Lib.Fips180
import Ds4.Kv.Sha1Fips
import Ds4.Kv.Sha1Buffer
import Ds4.Lib.BinaryFormat
import Ds4.Dist.Activation16
import Ds4.Dist.Round16
import Ds4.Dist.Widen16
import Ds4.Dist.Activation8
import Ds4.Lib.TopK
import Ds4.Lib.WeightedDraw
import Ds4.Sampling.Sample
import Ds4.Sampling.Selection
import Ds4.Sampling.Filters
import Ds4.Sampling.Distribution
import Ds4.Sampling.Paths
import Ds4.Lib.Vfs
import Ds4.Agent.Replace
import Ds4.Agent.ReplaceMove
import Ds4.Agent.ReplaceRun
import Ds4.Agent.ReplaceVersion
import Ds4.Agent.ReplaceAtomic
import Ds4.Lib.Draws
import Ds4.Sampling.Point
import Ds4.Engine.Stochastic
import Ds4.Engine.StochasticRun
import Ds4.Lib.Cursor
import Ds4.Gguf.Format
import Ds4.Gguf.Directory
import Ds4.Gguf.Accepts
import Ds4.Gguf.Lookup
import Ds4.Gguf.VocabLoad
import Ds4.Gguf.Extents
