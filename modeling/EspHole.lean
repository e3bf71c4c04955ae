import EspHole.Basic
import EspHole.Lib.Ascending
import EspHole.Lib.Ascii
import EspHole.Lib.CString
import EspHole.Lib.Cursor
import EspHole.Lib.Decimal
import EspHole.Lib.Dotted
import EspHole.Lib.Fleet
import EspHole.Lib.Ledger
import EspHole.Lib.Mutex
import EspHole.Lib.Prog
import EspHole.Lib.Regex
import EspHole.Lib.Rely
import EspHole.Lib.Sha256
import EspHole.Lib.Words
import EspHole.Pipeline.Hash
import EspHole.Pipeline.Normalize
import EspHole.Pipeline.Parse
import EspHole.Pipeline.Grammar
import EspHole.Pipeline.Line
import EspHole.Pipeline.Rules
import EspHole.Pipeline.Generate
import EspHole.Pipeline.Finish
import EspHole.Generator.Allowlist
import EspHole.Generator.Fetch
import EspHole.Generator.Lines
import EspHole.Generator.Version
import EspHole.Generator.Stats
import EspHole.Generator.Ingest
import EspHole.Generator.Datagram
import EspHole.Generator.Table
import EspHole.Sinkhole.Lookup
import EspHole.Sinkhole.LeftDrop
import EspHole.Sinkhole.Question
import EspHole.Sinkhole.Cache
import EspHole.Lib.Json
import EspHole.Sinkhole.Manifest
import EspHole.Generator.Serve
import EspHole.Sinkhole.Device
import EspHole.Sinkhole.Blocklist
import EspHole.Sinkhole.Updater
import EspHole.Sinkhole.Transfer
import EspHole.Sinkhole.Label
import EspHole.Sinkhole.Sizes
import EspHole.Sinkhole.Run
import EspHole.Sinkhole.Commit
import EspHole.Sinkhole.Poll
import EspHole.Sinkhole.Swap
import EspHole.Sinkhole.Memory
import EspHole.Sinkhole.Download
import EspHole.Sinkhole.Recheck
import EspHole.Sinkhole.Stats
import EspHole.Generator.Store
import EspHole.Generator.Save
import EspHole.Generator.Crash
import EspHole.Generator.Main
import EspHole.Generator.Memory
import EspHole.Generator.Outage
import EspHole.Sinkhole.DnsTask
import EspHole.Sinkhole.Answers
import EspHole.Sinkhole.Nxdomain
import EspHole.Sinkhole.Loop
import EspHole.Sinkhole.Serving
import EspHole.Sinkhole.Scan
import EspHole.Sinkhole.CacheMap
import EspHole.Sinkhole.CacheEviction
import EspHole.System.Publish
import EspHole.System.Decision
import EspHole.System.Poll
import EspHole.System.Validators
import EspHole.System.Stats
import EspHole.System.Totals
import EspHole.System.Integrity
import EspHole.System.Tally
import EspHole.System.Telemetry
import EspHole.System.Page
import EspHole.System.Deployment
import EspHole.System.Recovery
