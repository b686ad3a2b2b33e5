import NodeMini.Lib.CString
import NodeMini.Lib.Chain
import NodeMini.Lib.RequestLog
import NodeMini.Lib.Run
import NodeMini.Lib.Utf8
import NodeMini.Registry.Basic
import NodeMini.Registry.Shape
import NodeMini.Registry.Again
import NodeMini.Native.JsString
import NodeMini.Native.World
import NodeMini.Native.Lookup
import NodeMini.Native.Again
import NodeMini.Loaders.Basic
import NodeMini.Loaders.Binding
import NodeMini.Loaders.Initialisation
import NodeMini.Loaders.NativeModules
import NodeMini.Files.ReadFile
import NodeMini.Js2c.Names
import NodeMini.Js2c.Arity
import NodeMini.Js2c.Termination
import NodeMini.Js2c.Substitution
import NodeMini.Js2c.Order
import NodeMini.Js2c.Embedding
import NodeMini.Main.Console
import NodeMini.Main.FileMode
import NodeMini.Main.Script
import NodeMini.Main.Refinement
import NodeMini.Strings.Utf8Decoder
import NodeMini.Strings.Utf8Value
import NodeMini.Shell.RunShell
import NodeMini.Shell.Diagnostics
import NodeMini.Shell.Echo
import NodeMini.Platform.Joining
import NodeMini.Platform.MessageLoop
import NodeMini.Shell.Process
import NodeMini.Strings.PositionInfo
