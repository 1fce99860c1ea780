import WeaveGraph.Cli.Config
import WeaveGraph.Cli.Debounce
import WeaveGraph.Cli.Excluded
import WeaveGraph.Cli.Gate
import WeaveGraph.Cli.MigrationOrder
import WeaveGraph.Cli.Phantoms
import WeaveGraph.Cli.Pipeline
import WeaveGraph.Cli.Policy
import WeaveGraph.Cli.Push
import WeaveGraph.Cli.References
import WeaveGraph.Cli.UserData
import WeaveGraph.Cli.Watch
import WeaveGraph.Core.Cycles
import WeaveGraph.Hub.Canvas
import WeaveGraph.Hub.Direct
import WeaveGraph.Hub.EndToEnd
import WeaveGraph.Hub.Head
import WeaveGraph.Hub.Names
import WeaveGraph.Hub.Provenance
import WeaveGraph.Hub.Rate
import WeaveGraph.Hub.Responses
import WeaveGraph.Hub.Signatures
import WeaveGraph.Hub.Slots
import WeaveGraph.Hub.Upload
import WeaveGraph.Hub.Webhooks
import WeaveGraph.Mcp.EdgeFilters
import WeaveGraph.Mcp.Expand
import WeaveGraph.Mcp.Explore
import WeaveGraph.Mcp.FastPath
import WeaveGraph.Mcp.FileApi
import WeaveGraph.Mcp.RepoMap
import WeaveGraph.Mcp.Transport
import WeaveGraph.Parse.Interner
import WeaveGraph.Parse.Order
import WeaveGraph.Store.Path
import WeaveGraph.Store.Turso
import WeaveGraph.Store.Vectors
