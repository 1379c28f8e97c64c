import Cmpt433.Lib.Interaction
import Cmpt433.Lib.BoundedQueue
import Cmpt433.Lib.Runs
import Cmpt433.Lib.Interference
import Cmpt433.Lib.LockOrder
import Cmpt433.Lib.CriticalSections
import Cmpt433.Lib.LocalViews
import Cmpt433.Lib.Mutex
import Cmpt433.Lib.Fairness
import Cmpt433.Lib.CheckedArray
import Cmpt433.Lib.Ring
import Cmpt433.Lib.Saturation
import Cmpt433.Lib.Blocks
import Cmpt433.Lib.ReadModifyWrite
import Cmpt433.Lib.CString
import Cmpt433.Lib.Lines
import Cmpt433.Lib.RequestReply
import Cmpt433.Lib.Gaps
import Cmpt433.Lib.FileTree
import Cmpt433.Morse.Driver
import Cmpt433.Morse.Text
import Cmpt433.Morse.Scan
import Cmpt433.Morse.Write
import Cmpt433.Morse.Encode
import Cmpt433.Morse.Led
import Cmpt433.Morse.LeftOn
import Cmpt433.Morse.Reads
import Cmpt433.Morse.Readers
import Cmpt433.Morse.Stream
import Cmpt433.Sampler.History
import Cmpt433.Sampler.Stores
import Cmpt433.Sampler.Resize
import Cmpt433.Sampler.Dips
import Cmpt433.Sampler.Listing
import Cmpt433.Sampler.Operations
import Cmpt433.Sampler.Repeat
import Cmpt433.Sampler.Requests
import Cmpt433.Sampler.Paths
import Cmpt433.Sampler.Snapshot
import Cmpt433.Sampler.UdpListen
import Cmpt433.Sampler.Datagrams
import Cmpt433.Sampler.GetRequest
import Cmpt433.Sampler.Buffers
import Cmpt433.Sampler.Threads
import Cmpt433.Sampler.Locks
import Cmpt433.Sampler.Shutdown
import Cmpt433.Sampler.PeriodTimer
import Cmpt433.Sampler.LedDisplay
import Cmpt433.Mixer.AudioMixer
import Cmpt433.Mixer.Playback
import Cmpt433.Mixer.Sections
import Cmpt433.Mixer.Mixing
import Cmpt433.Mixer.Heard
import Cmpt433.Mixer.Bookkeeping
import Cmpt433.Beatbox.Controls
import Cmpt433.Beatbox.Threads
import Cmpt433.Beatbox.UdpListener
import Cmpt433.Beatbox.AudioThreads
import Cmpt433.Beatbox.AudioViews
import Cmpt433.Beatbox.AudioAgree
import Cmpt433.Beatbox.AudioOrder
import Cmpt433.Beatbox.AudioBeats
import Cmpt433.Beatbox.AudioBlocks
import Cmpt433.Beatbox.AudioShutdown
import Cmpt433.Beatbox.WebPage
import Cmpt433.Beatbox.Relay
import Cmpt433.Beatbox.StaticServer
import Cmpt433.Game.Reaction
import Cmpt433.Game.Quit
import Cmpt433.Game.Waiting
import Cmpt433.Game.Rounds
