import MaixSpeech.Common.Runs
import MaixSpeech.Common.CString
import MaixSpeech.Common.LastValue
import MaixSpeech.Common.Loop
import MaixSpeech.Config.Options
import MaixSpeech.Config.Parse
import MaixSpeech.Config.Reference
import MaixSpeech.Config.Refine
import MaixSpeech.Config.Correct
import MaixSpeech.Font.Registry
import MaixSpeech.Font.Draw
import MaixSpeech.Font.Layout
import MaixSpeech.Font.Text
import MaixSpeech.Font.Pixels
import MaixSpeech.Font.Paint
import MaixSpeech.Display.Framebuffer
import MaixSpeech.Display.Rows
import MaixSpeech.Ui.Callbacks
import MaixSpeech.Ui.Flush
import MaixSpeech.Ui.Safety
import MaixSpeech.Ui.Shown
import MaixSpeech.Ui.Stale
import MaixSpeech.Lm.Benchmark
import MaixSpeech.Lm.Framing
import MaixSpeech.Lm.Frames
import MaixSpeech.Lm.Results
import MaixSpeech.Wav.Benchmark
import MaixSpeech.Wav.Results
import MaixSpeech.Lm.Tables
import MaixSpeech.Font.Records
import MaixSpeech.Font.Cells
import MaixSpeech.Font.Image
import MaixSpeech.Font.Overlay
import MaixSpeech.Font.Reference
import MaixSpeech.Config.Startup
import MaixSpeech.Build.Info
import MaixSpeech.Build.Rewrite
import MaixSpeech.Common.CMake.Expand
import MaixSpeech.Common.CMake.Read
import MaixSpeech.Common.CMake.Commands
import MaixSpeech.Common.CMake.Roundtrip
import MaixSpeech.Build.Genconfig
import MaixSpeech.Wav.Report
import MaixSpeech.Lm.Beams
import MaixSpeech.Build.Describe
import MaixSpeech.Common.StableInsert
import MaixSpeech.Build.Components
import MaixSpeech.Display.Place
import MaixSpeech.Wav.Collect
import MaixSpeech.Common.Delete
import MaixSpeech.Common.Block
import MaixSpeech.Build.Settle
import MaixSpeech.Config.History
import MaixSpeech.Display.Masked
import MaixSpeech.Common.Memo
import MaixSpeech.Common.PyInt
import MaixSpeech.Kconfiglib.Expr
import MaixSpeech.Kconfiglib.Symbols
import MaixSpeech.Kconfiglib.Deps
import MaixSpeech.Kconfiglib.Cache
import MaixSpeech.Kconfiglib.Values
import MaixSpeech.Kconfiglib.Choices
import MaixSpeech.Kconfiglib.Assignable
import MaixSpeech.Common.PyLines
import MaixSpeech.Kconfiglib.Dotconfig
import MaixSpeech.Kconfiglib.Contents
import MaixSpeech.Kconfiglib.Agree
import MaixSpeech.Kconfiglib.Loading
import MaixSpeech.Kconfiglib.Reads
import MaixSpeech.Kconfiglib.Roundtrip
import MaixSpeech.Kconfiglib.Replace
import MaixSpeech.Kconfiglib.Project
import MaixSpeech.Common.Chain
import MaixSpeech.Kconfiglib.Finalize
import MaixSpeech.Kconfiglib.Meaning
import MaixSpeech.Kconfiglib.Sanity
import MaixSpeech.Kconfiglib.Syntax
import MaixSpeech.Common.Search
import MaixSpeech.Kconfiglib.Loops
