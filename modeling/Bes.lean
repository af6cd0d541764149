import Bes.Cache.ControlLock
import Bes.Cache.Deadlock
import Bes.Cache.PurgeLru
import Bes.Dap.CacheBound
import Bes.Dap.FunctionResponseCache
import Bes.Dap.InsertXmlBase
import Bes.Dispatch.Explode
import Bes.Dispatch.LoadKeys
import Bes.Dispatch.NormalizePath
import Bes.Dispatch.Uncompress
import Bes.Dispatch.Uncompress3Gz
import Bes.Dispatch.XmlEscape
import Bes.Dmrpp.ChildChunks
import Bes.Dmrpp.ChunkGrouping
import Bes.Dmrpp.FillValues
import Bes.Dmrpp.FilterPipeline
import Bes.Dmrpp.MachineInsert
import Bes.Dmrpp.MergeDmrpp
import Bes.Dmrpp.NeededChunks
import Bes.Dmrpp.PrintDap4
import Bes.Dmrpp.ReduceMdf
import Bes.Dmrpp.RequestHeaders
import Bes.Dmrpp.RetriedTransfer
import Bes.Dmrpp.ThreadPool
import Bes.Functions.BBoxUnion
import Bes.Functions.DilateArray
import Bes.Functions.GeoBox
import Bes.Functions.GridCoordinates
import Bes.Functions.GridUtils
import Bes.Functions.Odometer
import Bes.Functions.Tabular
import Bes.Hdf5.CacheList
import Bes.Hdf5.LatLonCache
import Bes.Hdf5.NameClash
import Bes.Hdf5.TrimString
import Bes.Http.AllowedHosts
import Bes.Http.CacheSize
import Bes.Http.EffectiveUrlCache
import Bes.Http.UrlCopies
import Bes.Ncml.Streaming
import Bes.Ncml.Union
import Bes.Ppt.MalformedHeader
import Bes.Ppt.ServerHandler
import Bes.Ppt.ShortWrites
