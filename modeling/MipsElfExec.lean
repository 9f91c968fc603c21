import MipsElfExec.Download.Resume
import MipsElfExec.Download.Descriptors
import MipsElfExec.Download.Isolation
import MipsElfExec.Getfile.UrlId
import MipsElfExec.Getfile.Store
import MipsElfExec.Getfile.Redirect
import MipsElfExec.Snooping.Conserve
import MipsElfExec.Snooping.Removal
import MipsElfExec.Snooping.Answer
import MipsElfExec.Snooping.Delivery
import MipsElfExec.Snooping.Log
import MipsElfExec.Snooping.System
import MipsElfExec.Snooping.Datagram
import MipsElfExec.Snooping.Reference
import MipsElfExec.Snooping.Wheel
import MipsElfExec.Snooping.Pool
import MipsElfExec.Snooping.Buffers
import MipsElfExec.Snooping.Stall
import MipsElfExec.Snooping.Overrun
import MipsElfExec.Snooping.Discard
import MipsElfExec.Snooping.Intent
import MipsElfExec.Snooping.Forbidden
import MipsElfExec.Download.Timeout
import MipsElfExec.Download.Body
import MipsElfExec.Download.Order
import MipsElfExec.Download.Url
import MipsElfExec.Download.ContentRange
import MipsElfExec.Adv.Rewrite
import MipsElfExec.SnoopClient.Agreement
import MipsElfExec.SnoopClient.StatusLine
import MipsElfExec.SnoopClient.UrlCode
import MipsElfExec.SnoopClient.Tradition
import MipsElfExec.Snooping.KeySpec
import MipsElfExec.Snooping.FileShare
import MipsElfExec.Snooping.Lookup
import MipsElfExec.Snooping.Mime
import MipsElfExec.Snooping.Fields
import MipsElfExec.Snooping.Homepage
import MipsElfExec.Snooping.Deflate
import MipsElfExec.Snooping.Admission
import MipsElfExec.Snooping.Parameter
import MipsElfExec.SnoopClient.Flvpath
import MipsElfExec.SnoopClient.HttpSession
import MipsElfExec.SnoopClient.M3u8
import MipsElfExec.SnoopClient.FileUrl
import MipsElfExec.SnoopClient.PlaylistUrl
import MipsElfExec.SnoopClient.HostAddr
import MipsElfExec.Getfile.Args
import MipsElfExec.Streaming.Mp4
import MipsElfExec.Streaming.Flv
import MipsElfExec.Adv.Unset
import MipsElfExec.Streaming.FlvScan
import MipsElfExec.Streaming.KeyFrames
import MipsElfExec.Adv.AdList
import MipsElfExec.Adv.AdDocument
import MipsElfExec.Adv.Playlist
import MipsElfExec.Lib.Image
import MipsElfExec.Tools.Converter
import MipsElfExec.Avllib.Holds
import MipsElfExec.Avllib.Rebalance
import MipsElfExec.Lib.Place
import MipsElfExec.Avllib.Insert
import MipsElfExec.Avllib.Delete
import MipsElfExec.Avllib.Erase
import MipsElfExec.Avllib.Shelf
import MipsElfExec.Avllib.Runs
import MipsElfExec.Avllib.Maps
import MipsElfExec.Avllib.Table
import MipsElfExec.Snooping.Trees
import MipsElfExec.Adv.Answer
import MipsElfExec.Adv.Deal
import MipsElfExec.Adv.Stream
