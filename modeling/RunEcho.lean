import RunEcho.Strings
import RunEcho.Regexp
import RunEcho.Parser
import RunEcho.Comments
import RunEcho.IR
import RunEcho.Hasher
import RunEcho.Walk
import RunEcho.Generator
import RunEcho.Normalization
import RunEcho.Utf8
import RunEcho.Json.Encode
import RunEcho.Json.Decode
import RunEcho.Json.Errors
import RunEcho.Json.RoundTrip
import RunEcho.Json.Unmarshal
import RunEcho.Storage
import RunEcho.Runs
