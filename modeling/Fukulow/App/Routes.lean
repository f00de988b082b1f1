/-
`crates/app/src/http.rs` and `crates/app/src/route_registry.rs`: the routes, and the layer
around all of them.

`protect` compares the `Origin` of a request before anything else runs, and takes the body
off every error after it, whoever answered. The router below it is `axum`'s: a path with no
route is 404, a route with another method 405, and a `GET` route serves `HEAD` as well. The
layer is put around each method of a path, so what `axum` does to a response comes after it:
`Allow` is added where the path has a route and the method has none, whether `protect` or the
fallback answered, and a response to `HEAD` loses its body. `content-length` and `date`, which
frame every response, are not part of it here.
-/
import Fukulow.App.Invites

set_option autoImplicit false

namespace Fukulow

/-! ## `http.rs` -/

/-- Is the request turned away before the router sees it? -/
def HttpRequest.refused (origin : Text) (request : HttpRequest) : Bool :=
  let websocket := (request.get_all "upgrade").head?.any fun value =>
    eq_ignore_ascii_case value (Utf8.encode "websocket".toList)
  let origins := request.get_all "origin"
  (request.method.changes_state || websocket)
    && (origins.head?.all (fun o => o ≠ Utf8.encode origin) || !origins.tail.isEmpty)

/-- `protect`, around handlers that call the crate `db`. -/
def protect_layer (origin : Text) (next : HttpRequest → Http HttpResponse) (request : HttpRequest) :
    Http HttpResponse :=
  if request.refused origin then return StatusCode.FORBIDDEN.into_response
  else do
    let response ← next request
    return response.emptied

def health : HttpResponse :=
  ⟨.OK, [("content-type", Utf8.encode "application/json".toList)],
    Utf8.encode "\x7b\"status\":\"ok\"\x7d".toList⟩

/-! ## `route_registry.rs` -/

def CREATE_PATH : Text := "/api/v1/organizations/{organization_id}/invites".toList
def REVOKE_PATH : Text := "/api/v1/organizations/{organization_id}/invites/{id}".toList
def ACCEPT_PATH : Text := "/api/v1/invite-acceptances".toList

section Routes

variable (lib : Libraries) (state : StateData) (ambient : Ambient) (request : HttpRequest)

structure Route where
  method : Method
  path : Text
  websocket : Bool
  needs_session : Bool
  handler : Http HttpResponse

/-- A handler behind the extractor of `Authenticated`. -/
def authenticated (handler : sessions.Authenticated → Http HttpResponse) : Http HttpResponse := do
  let authenticated ← sessions.from_request_parts lib request
  handler authenticated

def ROUTES : List Route :=
  [⟨.GET, "/health".toList, false, false, return health⟩,
    ⟨.POST, "/api/v1/sessions".toList, false, false,
      sessions.sign_in lib state ⟨ambient.id⟩ (lib.bytes request)⟩,
    ⟨.DELETE, "/api/v1/sessions/current".toList, false, true,
      authenticated lib request (sessions.sign_out lib)⟩,
    ⟨.GET, "/api/v1/me".toList, false, true, authenticated lib request (sessions.me lib)⟩,
    ⟨.POST, CREATE_PATH, false, true, authenticated lib request fun who =>
      invites.create lib state who request.path ⟨ambient.id⟩ (lib.bytes request)⟩,
    ⟨.DELETE, REVOKE_PATH, false, true, authenticated lib request fun who =>
      invites.revoke lib who request.path⟩,
    ⟨.POST, ACCEPT_PATH, false, false,
      invites.accept lib state ⟨ambient.id⟩ (lib.bytes request)⟩]

end Routes

/-- Does a segment of a path fit one of a route? `{name}` stands for any, but at the end of the
path (`last`) for none that is empty. -/
def segment_fits (last : Bool) (pattern segment : Text) : Bool :=
  if pattern.head? = some '{' then !(last && segment.isEmpty) else pattern = segment

def segments_fit : List Text → List Text → Bool
  | [], [] => true
  | pattern :: patterns, segment :: segments =>
      segment_fits segments.isEmpty pattern segment && segments_fit patterns segments
  | _, _ => false

/-- Does the path fit the route? -/
def path_fits (pattern path : Text) : Bool :=
  segments_fit (pattern.splitOn '/') (path.splitOn '/')

/-- `MethodFilter`: `on(GET, ..)` serves `HEAD`. -/
def Method.serves (route request : Method) : Bool :=
  route = request || (route = .GET && request = .HEAD)

/-- The response to an error; a panic has none. -/
def Stop.into_response : Stop → Except Stop HttpResponse
  | .status code => .ok code.into_response
  | .panicked => .error .panicked

/-- The routes of the request's path, which share a method router. -/
def method_router (lib : Libraries) (state : StateData) (ambient : Ambient) (request : HttpRequest) :
    List Route :=
  (ROUTES lib state ambient request).filter fun route => path_fits route.path request.path

/-- `router()`. -/
def router (lib : Libraries) (state : StateData) (ambient : Ambient) (request : HttpRequest) :
    Http HttpResponse :=
  let routes := method_router lib state ambient request
  match routes.find? fun route => route.method.serves request.method with
  | some route => route.handler.handle Stop.into_response
  | none =>
    if routes.isEmpty then return StatusCode.NOT_FOUND.into_response
    else return StatusCode.METHOD_NOT_ALLOWED.into_response

/-- What `on` adds to the `Allow` of a method router. -/
def Method.allow : Method → String
  | GET => "GET,HEAD"
  | HEAD => "HEAD"
  | POST => "POST"
  | PUT => "PUT"
  | PATCH => "PATCH"
  | DELETE => "DELETE"
  | OPTIONS => "OPTIONS"
  | CONNECT => "CONNECT"
  | TRACE => "TRACE"
  | extension token => token

/-- The `Allow` that a method router sets where it has no handler. -/
def allow_header (routes : List Route) (method : Method) : Option (List UInt8) :=
  if routes.isEmpty || routes.any (fun route => route.method.serves method) then none
  else some (Utf8.encode (",".intercalate (routes.map fun route => route.method.allow)).toList)

def set_allow_header (allow : Option (List UInt8)) (response : HttpResponse) : HttpResponse :=
  match allow with
  | some methods =>
    if response.headers.any fun header => header.1 = "allow" then response
    else { response with headers := response.headers ++ [("allow", methods)] }
  | none => response

/-- The response to `HEAD` has no body. -/
def strip_body (method : Method) (response : HttpResponse) : HttpResponse :=
  if method = .HEAD then { response with body := [] } else response

/-- A request, and what it finds. -/
structure Arrival where
  request : HttpRequest
  ambient : Ambient

/-- The `Allow` of the response: the methods of the path, where the request's is not among them. -/
def Arrival.allow (lib : Libraries) (origin : Text) (i : Arrival) : Option (List UInt8) :=
  allow_header (method_router lib (.new lib origin i.ambient) i.ambient i.request) i.request.method

/-- `routes(state)`, on one request. -/
def routes (lib : Libraries) (origin : Text) (i : Arrival) : Http HttpResponse := do
  let response ← protect_layer origin (router lib (.new lib origin i.ambient) i.ambient) i.request
  return strip_body i.request.method (set_allow_header (i.allow lib origin) response)

/-- `protect` as one decision: a request is refused, or passed on and its error emptied. -/
theorem protect_eq (origin : Text) (next : HttpRequest → HttpResponse) (request : HttpRequest) :
    protect origin request next
      = if request.refused origin then StatusCode.FORBIDDEN.into_response
        else (next request).emptied := rfl

/-- `protect_layer` is `protect`, where the handlers make no call. -/
theorem protect_layer_pure (origin : Text) (next : HttpRequest → HttpResponse)
    (request : HttpRequest) :
    protect_layer origin (fun r => return next r) request = return protect origin request next := by
  rw [protect_layer, protect_eq]
  by_cases h : request.refused origin = true
  · rw [if_pos h, if_pos h]
  · rw [if_neg h, if_neg h]
    rfl

end Fukulow
