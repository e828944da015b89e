import Airl.Runtime.Value

/-! # Builtins

The two hundred functions of `airl-rt` that a program calls by name are a
parameter, together with the world they act on. Its one fixed entry is `at`,
which the compiler itself calls to take a payload apart.
-/

namespace Airl

/-- `airl_at` on an argument list, with its `rt_error` exits. -/
def airlAt {Code : Type} : List (Value Code) → Except Fault (Value Code)
  | .list items :: .int i :: _ =>
    if i < 0 then .error .exit
    else match items[i.toInt.toNat]? with
      | some item => .ok item
      | none => .error .exit
  | .bytes data :: .int i :: _ =>
    if i < 0 then .error .exit
    else match data[i.toInt.toNat]? with
      | some byte => .ok (.int (.ofNat byte.toNat))
      | none => .error .exit
  | _ => .error .exit

/-- `dispatch_rt_builtin` and the two names the machine dispatches itself. -/
structure Builtins (Code World : Type) where
  /-- The names `dispatch_rt_builtin` handles. -/
  known : String → Bool
  dispatch : String → List (Value Code) → World → Except Fault (Value Code) × World
  threadSpawn : List (Value Code) → World → Except Fault (Value Code) × World
  fnMetadata : List (Value Code) → World → Except Fault (Value Code) × World
  known_at : known "at" = true
  dispatch_at : ∀ args world, dispatch "at" args world = (airlAt args, world)

/-- `builtin_arity`, arm by arm; the names that are absent or variadic have none. -/
def builtinArity (name : String) : Option Nat :=
  if name ∈ ["+", "-", "*", "/", "%", "=", "!=", "<", ">", "<=", ">=", "and", "or", "xor"] then
    some 2
  else if name ∈ ["not", "length", "head", "tail", "empty?", "chars", "char-count", "char-code",
      "char-upper?", "char-lower?"] then some 1
  else if name ∈ ["at", "append", "cons", "list-contains?", "map-get", "map-has",
      "map-remove"] then some 2
  else if name = "map-keys" then some 1
  else if name ∈ ["map-set", "at-or", "set-at"] then some 3
  else if name ∈ ["split", "join", "char-at", "string-ci=?", "char-from-code"] then some 2
  else if name ∈ ["substring", "replace"] then some 3
  else if name ∈ ["print", "println", "eprint", "eprintln", "rt-stats", "bc-func-is-main?",
      "bc-func-name"] then some 1
  else if name = "bc-func-from" then some 6
  else if name ∈ ["read-lines", "write-file", "file-exists?", "exec-file", "append-file",
      "delete-file", "delete-dir", "read-dir", "create-dir", "file-size", "is-dir?", "temp-file",
      "temp-dir", "file-mtime"] then some 1
  else if name = "rename-file" then some 2
  else if name ∈ ["int-to-string", "float-to-string", "string-to-int", "string-to-float",
      "type-of", "valid", "panic", "sqrt", "sin", "cos", "tan", "log", "exp", "floor", "ceil",
      "round", "float-to-int", "int-to-float", "is-nan?", "is-infinite?"] then some 1
  else if name ∈ ["parse-int-radix", "int-to-string-radix", "format-time", "bitwise-xor",
      "bitwise-and", "bitwise-or", "bitwise-shr", "bitwise-shl", "bytes-xor",
      "bytes-xor-scalar"] then some 2
  else if name ∈ ["sha256", "sha256-bytes", "random-bytes", "bytes-alloc", "bytes-length",
      "bytes-new", "bytes-from-int8", "bytes-from-int16", "bytes-from-int32", "bytes-from-int64",
      "bytes-from-string", "bytes-concat-all", "crc32c", "gzip-compress", "gzip-decompress",
      "snappy-compress", "snappy-decompress", "lz4-compress", "lz4-decompress", "zstd-compress",
      "zstd-decompress"] then some 1
  else if name ∈ ["bytes-get", "bytes-to-int16", "bytes-to-int32", "bytes-to-int64",
      "bytes-concat", "regex-match", "regex-find-all", "regex-split", "hmac-sha256",
      "hmac-sha256-bytes", "sha512", "hmac-sha512", "sha512-bytes", "hmac-sha512-bytes",
      "shell-exec", "assert", "icmp-ping"] then some 2
  else if name ∈ ["sleep", "dns-resolve"] then some 1
  else if name ∈ ["aes-256-gcm-encrypt", "aes-256-gcm-decrypt", "bytes-set!", "bytes-to-string",
      "bytes-slice", "regex-replace", "shell-exec-with-stdin"] then some 3
  else if name ∈ ["map-new", "read-line", "read-stdin", "time-now", "cpu-count", "get-cwd",
      "infinity", "nan", "get-args", "whoami", "id", "ash-install-sigint", "ash-sigint-pending",
      "canopy_raw_mode_enable", "canopy_raw_mode_disable", "canopy_stdin_read_byte",
      "canopy_stdin_read_available", "canopy_terminal_size", "aircon_list",
      "airl_aircon_list"] then some 0
  else if name ∈ ["airl_sqlite_open", "airl_sqlite_step", "airl_sqlite_column_count",
      "airl_sqlite_finalize", "airl_sqlite_close", "airl_sqlite_errmsg"] then some 1
  else if name ∈ ["airl_sqlite_prepare", "airl_sqlite_column_text",
      "airl_sqlite_column_int"] then some 2
  else none

/-- The partial application that a call of a builtin with too few arguments makes. -/
def builtinPartial {Code : Type} (name : String) (args : List (Value Code)) :
    Option (Value Code) :=
  match builtinArity name with
  | some expected =>
    if args.length < expected then
      some (.partialApp (.builtinFn name) args (expected - args.length))
    else none
  | none => none

end Airl
