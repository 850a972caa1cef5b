import LibNokogiri.Pcap.Indexing
import LibNokogiri.Pcap.Construction
import LibNokogiri.Pcap.Retrieval
import LibNokogiri.Pcap.Decoding
import LibNokogiri.Pcap.RoundTrip
import LibNokogiri.Internal.Decompression
import LibNokogiri.Internal.StoredGzip
import LibNokogiri.Pcap.Acceptance
import LibNokogiri.Pcap.ByteOrder
import LibNokogiri.Pcap.Compression
import LibNokogiri.Foundation.Run
import LibNokogiri.Foundation.Splicing
import LibNokogiri.Pcap.Reencoding
import LibNokogiri.Pcap.Editing
import LibNokogiri.Pcap.Members
import LibNokogiri.Tests.PcapTest
import LibNokogiri.Foundation.Holdings
import LibNokogiri.Internal.TempFiles
import LibNokogiri.Pcap.TempCopies
import LibNokogiri.Foundation.Tape
import LibNokogiri.Internal.SharedFile
import LibNokogiri.Internal.SharedRuns
import LibNokogiri.Pcap.LiveFile
import LibNokogiri.Pcap.Objects
import LibNokogiri.Internal.Ownership
import LibNokogiri.Version
import LibNokogiri.Pcap.TypedAccess
import LibNokogiri.Pcap.HeaderCodec
import LibNokogiri.Pcap.Calls
import LibNokogiri.Pcap.IndexBounds
import LibNokogiri.Internal.Copying
import LibNokogiri.Internal.FdRuns
import LibNokogiri.Foundation.Shifts
import LibNokogiri.Internal.Fields
import LibNokogiri.Pcap.Iteration
import LibNokogiri.Internal.GzAccess
import LibNokogiri.Pcapng.Option
