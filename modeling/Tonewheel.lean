import Tonewheel.Main
import Tonewheel.Midi
import Tonewheel.Pcm.Handles
import Tonewheel.Transport
import Tonewheel.Proofs.Signal.Blocks
import Tonewheel.Proofs.Signal.Cuts
import Tonewheel.Proofs.Signal.Durations
import Tonewheel.Proofs.Sound.Streaming
import Tonewheel.Proofs.Sound.Printing
import Tonewheel.Proofs.Sound.Layout
import Tonewheel.Proofs.Sound.Lines
import Tonewheel.Proofs.Sound.Description
import Tonewheel.Proofs.Sound.Grammar
import Tonewheel.Proofs.Sound.Banks
import Tonewheel.Proofs.Sound.Citations
import Tonewheel.Proofs.Sounding.Fade
import Tonewheel.Proofs.Sounding.Slots
import Tonewheel.Proofs.Song.Playing
import Tonewheel.Proofs.Synth.Tracks
import Tonewheel.Proofs.Synth.Sequencing
import Tonewheel.Proofs.Numeric.Rounding
import Tonewheel.Proofs.Numeric.Integers
import Tonewheel.Proofs.Song.Frames
import Tonewheel.Proofs.Song.Stream
import Tonewheel.Proofs.Song.Repeating
import Tonewheel.Proofs.Song.Writing
import Tonewheel.Proofs.Song.RoundTrip
import Tonewheel.Proofs.Song.Reencoding
import Tonewheel.Proofs.Song.Timing
import Tonewheel.Proofs.Song.Items
import Tonewheel.Proofs.Song.Moves
import Tonewheel.Proofs.Song.Seeking
import Tonewheel.Proofs.Song.Duration
import Tonewheel.Proofs.Pool
import Tonewheel.Proofs.Pool.Eviction
import Tonewheel.Proofs.Synth.Steps
import Tonewheel.Proofs.Sounding.Tuning
import Tonewheel.Proofs.Synth.Ensemble
import Tonewheel.Proofs.Synth.Events
import Tonewheel.Proofs.Synth.EnsembleSteps
import Tonewheel.Proofs.Synth.Attendance
import Tonewheel.Proofs.Sound.Progress
import Tonewheel.Proofs.Synth.Printers
import Tonewheel.Proofs.Synth.PrintsAhead
import Tonewheel.Proofs.Synth.Playbacks
import Tonewheel.Proofs.Pcm.Cache
import Tonewheel.Proofs.Synth.PrintedOnce
import Tonewheel.Proofs.Synth.Confinement
import Tonewheel.Proofs.Synth.Handover
import Tonewheel.Proofs.Sounding.Parts
import Tonewheel.Proofs.Synth.Heard
import Tonewheel.Proofs.Synth.SamePrints
import Tonewheel.Proofs.Synth.Alike
import Tonewheel.Proofs.Synth.Words
import Tonewheel.Proofs.Synth.Lengths
import Tonewheel.Proofs.Synth.Mono
import Tonewheel.Proofs.Synth.Seams
import Tonewheel.Proofs.Synth.FrameByFrame
import Tonewheel.Proofs.Synth.Channels
import Tonewheel.Proofs.Synth.Progress
import Tonewheel.Proofs.Synth.WrongEvents
import Tonewheel.Proofs.Synth.VoicePool
import Tonewheel.Proofs.Synth.Ages
import Tonewheel.Proofs.Synth.Programs
import Tonewheel.Proofs.Signal.Finishing
import Tonewheel.Proofs.Sounding.Retiring
import Tonewheel.Proofs.Synth.Songless
import Tonewheel.Proofs.Synth.LookUps
import Tonewheel.Proofs.Synth.OtherChannels
import Tonewheel.Proofs.Synth.HeldNotes
import Tonewheel.Proofs.Synth.Undecodable
import Tonewheel.Proofs.Pcm.Histories
import Tonewheel.Proofs.Sound.Truncation
import Tonewheel.Proofs.Sound.ByteCuts
import Tonewheel.Proofs.Sound.Partition
import Tonewheel.Proofs.Sound.Loading
import Tonewheel.Proofs.Sound.Undisturbed
import Tonewheel.Proofs.Sound.PrintedLength
import Tonewheel.Proofs.Sound.Clamping
import Tonewheel.Proofs.Sound.Ids
import Tonewheel.Proofs.Sounding.Polyphony
import Tonewheel.Proofs.Numeric.WholeNumbers
import Tonewheel.Proofs.Signal.DelayLines
import Tonewheel.Proofs.Numeric.Signs
import Tonewheel.Proofs.Sound.Breakpoints
import Tonewheel.Proofs.Signal.Harmonics
import Tonewheel.Proofs.Sound.VoiceStreams
import Tonewheel.Proofs.Synth.RackSetup
import Tonewheel.Proofs.Signal.Spreading
import Tonewheel.Proofs.Synth.Interleaving
